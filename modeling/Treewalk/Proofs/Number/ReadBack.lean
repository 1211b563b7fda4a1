import Treewalk.Proofs.Number.Bits
import Treewalk.Proofs.Scan.Lexemes

set_option autoImplicit false
set_option relaxedAutoImplicit false

/-!
Numbers that are written read back.

A finite magnitude is a whole number of units, and rounding such a quotient changes nothing. So the
decimal that is chosen for a magnitude denotes it, whether it was found on a grid or has all digits, and
its positional text has the same digits in front of and behind the point.
-/

namespace Treewalk

namespace Binary64

theorem roundedQuotient_mul (q : Nat) {d : Nat} (hd : 0 < d) : roundedQuotient (q * d) d = q := by
  have hremainder : q * d % d = 0 := Nat.mul_mod_left q d
  have hquotient : q * d / d = q := Nat.mul_div_cancel q hd
  rw [roundedQuotient, hremainder, hquotient, if_pos (by omega)]

theorem log2_mul_two_pow {q : Nat} (k : Nat) (hlow : Nat.pow 2 52 ≤ q) (hhigh : q < Nat.pow 2 53) :
    (q * Nat.pow 2 k).log2 = 52 + k := by
  simp only [Nat.pow_eq] at hlow hhigh ⊢
  have hpos : 0 < 2 ^ k := Nat.two_pow_pos k
  have hne : q * 2 ^ k ≠ 0 := Nat.ne_of_gt (Nat.mul_pos (by omega) hpos)
  rw [Nat.log2_eq_iff hne]
  constructor
  · rw [Nat.pow_add]
    exact Nat.mul_le_mul_right _ hlow
  · have hsucc : 52 + k + 1 = 53 + k := by omega
    rw [hsucc, Nat.pow_add]
    exact Nat.mul_lt_mul_of_pos_right hhigh hpos

/-- The units of a magnitude are a mantissa of at most 53 bits, shifted. -/
theorem exists_units_eq (m : Nat) : ∃ q,
    units m = q * Nat.pow 2 ((units m).log2 - 52) ∧
      ((units m).log2 - 52) * Nat.pow 2 52 + q = m := by
  simp only [Nat.pow_eq]
  have hsplit : 2 ^ 52 * (m / 2 ^ 52) + m % 2 ^ 52 = m := Nat.div_add_mod m (2 ^ 52)
  have hfraction : m % 2 ^ 52 < 2 ^ 52 := Nat.mod_lt m (by decide)
  by_cases hexponent : m / 2 ^ 52 = 0
  · have hunits : units m = m % 2 ^ 52 := if_pos hexponent
    have hlog : (m % 2 ^ 52).log2 - 52 = 0 := by
      by_cases hzero : m % 2 ^ 52 = 0
      · rw [hzero]
        rfl
      · have hlt : (m % 2 ^ 52).log2 < 52 := (Nat.log2_lt hzero).mpr hfraction
        omega
    refine ⟨m % 2 ^ 52, ?_, ?_⟩
    · rw [hunits, hlog, Nat.pow_zero, Nat.mul_one]
    · rw [hexponent, Nat.mul_zero] at hsplit
      rw [hunits, hlog, Nat.zero_mul]
      exact hsplit
  · have hunits : units m = (2 ^ 52 + m % 2 ^ 52) * 2 ^ (m / 2 ^ 52 - 1) := if_neg hexponent
    have hlog : (units m).log2 - 52 = m / 2 ^ 52 - 1 := by
      have hshifted : ((2 ^ 52 + m % 2 ^ 52) * 2 ^ (m / 2 ^ 52 - 1)).log2 = 52 + (m / 2 ^ 52 - 1) :=
        log2_mul_two_pow _ (Nat.le_add_right ..) (Nat.add_lt_add_left hfraction _)
      rw [hunits, hshifted]
      omega
    refine ⟨2 ^ 52 + m % 2 ^ 52, ?_, ?_⟩
    · rw [hlog, hunits]
    · rw [hlog]
      omega

/-- A quotient that is a finite magnitude is rounded to this magnitude. -/
theorem nearest_of_units {num den m : Nat} (hden : 0 < den)
    (h : num * Nat.pow 2 1074 = units m * den) (hm : m < infinity) : nearest num den = m := by
  obtain ⟨q, hunits, hpattern⟩ := exists_units_eq m
  simp only [Nat.pow_eq] at hunits hpattern
  have hquotient : units m * den / den = units m := Nat.mul_div_cancel _ hden
  have hscaled : units m * den = q * (den * 2 ^ ((units m).log2 - 52)) := by
    calc units m * den
      _ = q * 2 ^ ((units m).log2 - 52) * den := congrArg (· * den) hunits
      _ = q * (2 ^ ((units m).log2 - 52) * den) := Nat.mul_assoc ..
      _ = q * (den * 2 ^ ((units m).log2 - 52)) := by rw [Nat.mul_comm (2 ^ _) den]
  have hpos : 0 < den * 2 ^ ((units m).log2 - 52) := Nat.mul_pos hden (Nat.two_pow_pos _)
  have hround : roundedQuotient (units m * den) (den * 2 ^ ((units m).log2 - 52)) = q := by
    rw [hscaled]
    exact roundedQuotient_mul q hpos
  rw [nearest, h, hquotient]
  simp only [Nat.pow_eq]
  rw [hround, hpattern]
  exact Nat.min_eq_left (Nat.le_of_lt hm)

end Binary64

namespace Decimal

open Treewalk.Binary64

theorem nearest_ofNat (n e : Nat) :
    (⟨n, Int.ofNat e⟩ : Decimal).nearest = Binary64.nearest (n * Nat.pow 10 e) 1 := rfl

theorem nearest_neg (n k : Nat) :
    (⟨n, -k⟩ : Decimal).nearest = Binary64.nearest n (Nat.pow 10 k) := by
  cases k with
  | zero =>
    have hwhole : (⟨n, -(0 : Nat)⟩ : Decimal).nearest = Binary64.nearest (n * 1) 1 := rfl
    rw [hwhole, Nat.mul_one]
  | succ k => rfl

theorem nearest_exactly {m : Nat} (hm : m < infinity) : (exactly m).nearest = m := by
  have hpos : ∀ k : Nat, 0 < Nat.pow 10 k := fun k => Nat.pow_pos (by decide)
  refine (nearest_neg (units m * Nat.pow 5 1074) 1074).trans ?_
  refine nearest_of_units (hpos 1074) ?_ hm
  -- The powers are too large to be evaluated; what is left holds of every exponent.
  generalize 1074 = k
  have hten : Nat.pow 5 k * Nat.pow 2 k = Nat.pow 10 k := (Nat.mul_pow 5 2 k).symm
  rw [Nat.mul_assoc, hten]

/-- A point of a grid is taken only if it reads back. -/
theorem nearest_of_onGrid {m : Nat} {exponent : Int} {d : Decimal}
    (h : onGrid m exponent = some d) : d.nearest = m := by
  simp only [onGrid] at h
  split at h
  all_goals
    split at h
    · next hfirst =>
      obtain rfl := Option.some.inj h
      exact hfirst
    · split at h
      · next hsecond =>
        obtain rfl := Option.some.inj h
        exact hsecond
      · contradiction

theorem nearest_firstOnGrid {m : Nat} (hm : m < infinity) (grids : Nat) (exponent : Int) :
    (firstOnGrid m grids exponent).nearest = m := by
  induction grids generalizing exponent with
  | zero => exact nearest_exactly hm
  | succ grids ih =>
    rw [firstOnGrid]
    split
    · next d hd => exact nearest_of_onGrid hd
    · exact ih (exponent - 1)

/-- The decimal that stands for a finite magnitude denotes it. -/
theorem nearest_shortest {m : Nat} (hm : m < infinity) : (shortest m).nearest = m := by
  unfold shortest
  split
  · next hzero =>
    subst hzero
    have hnearest : (⟨0, 0⟩ : Decimal).nearest = Binary64.nearest 0 1 := nearest_neg 0 0
    have hunits : ∀ k : Nat, 0 * k = units 0 * 1 := fun k => Nat.zero_mul k
    rw [hnearest]
    exact nearest_of_units Nat.one_pos (hunits (Nat.pow 2 1074)) hm
  · exact nearest_firstOnGrid hm 20 _

/-- Zeros in front of digits do not count, and those behind them do. -/
theorem ofDigitChars_zeros (k e n : Nat) :
    Nat.ofDigitChars 10
      (List.replicate k '0' ++ Nat.toDigits 10 n ++ List.replicate e '0') 0 = Nat.pow 10 e * n := by
  have hleading : Nat.ofDigitChars 10 (List.replicate k '0') 0 = 0 := by
    rw [Nat.ofDigitChars_replicate_zero, Nat.mul_zero]
  rw [Nat.ofDigitChars_append, Nat.ofDigitChars_append, hleading, Nat.ofDigitChars_ten_toDigits,
    Nat.ofDigitChars_replicate_zero]
  rfl

/-- Digits with zeros on both sides. -/
theorem isDigit_of_mem_padded {k e n : Nat} {c : Char}
    (h : c ∈ List.replicate k '0' ++ Nat.toDigits 10 n ++ List.replicate e '0') : c.isDigit := by
  rcases List.mem_append.mp h with hfront | hzero
  · rcases List.mem_append.mp hfront with hzero | hdigit
    · rw [List.eq_of_mem_replicate hzero]
      rfl
    · exact Nat.isDigit_of_mem_toDigits (by decide) (by decide) hdigit
  · rw [List.eq_of_mem_replicate hzero]
    rfl

theorem positional_ofNat (n e : Nat) : positional ⟨n, .ofNat e⟩ =
    (List.replicate 0 '0' ++ Nat.toDigits 10 n ++ List.replicate e '0', []) := rfl

/-- A decimal with digits behind the point has its digits with zeros in front of them, so many that one
is left in front of the point. -/
theorem exists_positional_negSucc (n e : Nat) : ∃ padded : List Char,
    e + 2 ≤ padded.length ∧ (∀ c ∈ padded, c.isDigit) ∧ Nat.ofDigitChars 10 padded 0 = n ∧
      positional ⟨n, .negSucc e⟩ =
        (padded.take (padded.length - (e + 1)), padded.drop (padded.length - (e + 1))) := by
  let zeros := e + 2 - (Nat.toDigits 10 n).length
  have hpadded : List.replicate zeros '0' ++ Nat.toDigits 10 n =
      List.replicate zeros '0' ++ Nat.toDigits 10 n ++ List.replicate 0 '0' :=
    (List.append_nil _).symm
  refine ⟨List.replicate zeros '0' ++ Nat.toDigits 10 n, ?_, ?_, ?_, rfl⟩
  · rw [List.length_append, List.length_replicate]
    omega
  · intro c hc
    rw [hpadded] at hc
    exact isDigit_of_mem_padded hc
  · rw [hpadded, ofDigitChars_zeros]
    exact Nat.one_mul n

/-- The digits of a decimal in positional notation: there is one in front of the point, and they denote
what the decimal denotes. -/
theorem positional_spec (d : Decimal) :
    IsDigits d.positional.1 ∧ (d.positional.2 = [] ∨ IsDigits d.positional.2) ∧
      (ofDigits d.positional.1 d.positional.2).nearest = d.nearest := by
  rcases d with ⟨n, exponent⟩
  cases exponent with
  | ofNat e =>
    rw [positional_ofNat]
    refine ⟨⟨?_, fun c hc => isDigit_of_mem_padded hc⟩, .inl rfl, ?_⟩
    · exact List.append_ne_nil_of_left_ne_nil Nat.toDigits_ne_nil _
    · have hvalue : ofDigits (List.replicate 0 '0' ++ Nat.toDigits 10 n ++ List.replicate e '0') [] =
          ⟨Nat.pow 10 e * n, .ofNat 0⟩ := by
        rw [ofDigits, List.append_nil, ofDigitChars_zeros]
        rfl
      have hone : n * Nat.pow 10 e * Nat.pow 10 0 = n * Nat.pow 10 e := Nat.mul_one _
      rw [hvalue, nearest_ofNat, nearest_ofNat, Nat.mul_comm (Nat.pow 10 e) n, hone]
  | negSucc e =>
    obtain ⟨padded, hlength, hdigits, hvalue, hpositional⟩ := exists_positional_negSucc n e
    have hwhole : (padded.take (padded.length - (e + 1))).length = padded.length - (e + 1) :=
      List.length_take_of_le (Nat.sub_le ..)
    have hfraction : (padded.drop (padded.length - (e + 1))).length = e + 1 := by
      rw [List.length_drop]
      omega
    simp only [hpositional]
    refine ⟨⟨?_, ?_⟩, .inr ⟨?_, ?_⟩, ?_⟩
    · exact List.ne_nil_of_length_pos (by omega)
    · intro c hc
      exact hdigits c (List.mem_of_mem_take hc)
    · exact List.ne_nil_of_length_pos (by omega)
    · intro c hc
      exact hdigits c (List.mem_of_mem_drop hc)
    · rw [ofDigits, List.take_append_drop, hvalue, hfraction]
      rfl

theorem text_eq (d : Decimal) :
    d.text = String.ofList (Scan.numeralLexeme d.positional.1 d.positional.2) := by
  rw [text, Scan.numeralLexeme]
  split
  · next whole hpositional =>
    rw [hpositional]
    rfl
  · next whole fraction hfraction hpositional =>
    have hne : fraction.isEmpty = false := by simpa using hfraction
    rw [hpositional, hne]
    rfl

end Decimal

/-- A finite double that is not negative is written with digits, and with digits behind a point if it
is not whole, and they read back as the double. -/
theorem Number.exists_text {x : Float} (hfinite : Binary64.magnitude x < Binary64.infinity)
    (hsign : Binary64.isNegative x = false) : ∃ whole fraction : List Char,
    IsDigits whole ∧ (fraction = [] ∨ IsDigits fraction) ∧
      Number.text x = String.ofList (Scan.numeralLexeme whole fraction) ∧
      Number.ofDigits whole fraction = x := by
  obtain ⟨hwhole, hfraction, hnearest⟩ :=
    (Decimal.shortest (Binary64.magnitude x)).positional_spec
  refine ⟨_, _, hwhole, hfraction, ?_, ?_⟩
  · have hnumber : ¬ Binary64.infinity < Binary64.magnitude x := Nat.lt_asymm hfinite
    rw [Number.text, if_neg hnumber, hsign, if_neg Bool.false_ne_true, Number.magnitudeText,
      if_neg (Nat.ne_of_lt hfinite), Decimal.text_eq]
  · rw [Number.ofDigits, hnearest, Decimal.nearest_shortest hfinite,
      Binary64.toFloat_magnitude hsign]

end Treewalk
