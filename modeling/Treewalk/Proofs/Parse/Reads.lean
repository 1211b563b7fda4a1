import Treewalk.Parse.Basic

set_option autoImplicit false
set_option relaxedAutoImplicit false

/-!
Readings without errors.

`Reads p finish tokens a rest` says that the reader `p` takes the tokens before `rest`, ends with
the result `a` and records nothing. For each primitive reader one equivalence says when this is so,
so that the readers built from them can be taken apart and put together without opening them.
-/

namespace Treewalk.Parser

variable {α β : Type}

/-- The reader gives `a`, leaves `rest` and has nothing to complain about. -/
def Reads (p : Parser α) (finish : Token) (tokens : List Token) (a : α)
    (rest : List Token) : Prop :=
  p finish tokens = ⟨.ok a, rest, []⟩

/-- No token of the given kinds is next. -/
def NextNot (kinds : List Kind) (tokens : List Token) : Prop :=
  ∀ t ∈ tokens.head?, t.kind ∉ kinds

@[simp] theorem nextNot_nil (kinds : List Kind) : NextNot kinds [] := by
  simp [NextNot]

@[simp] theorem nextNot_cons (kinds : List Kind) (t : Token) (tokens : List Token) :
    NextNot kinds (t :: tokens) ↔ t.kind ∉ kinds := by
  simp [NextNot]

theorem pure_apply (a : α) (finish : Token) (tokens : List Token) :
    (pure a : Parser α) finish tokens = ⟨.ok a, tokens, []⟩ := rfl

theorem bind_apply (p : Parser α) (f : α → Parser β) (finish : Token) (tokens : List Token) :
    (p >>= f) finish tokens =
      match p finish tokens with
      | ⟨.error e, pending, recorded⟩ => ⟨.error e, pending, recorded⟩
      | ⟨.ok a, pending, recorded⟩ =>
        ⟨(f a finish pending).outcome, (f a finish pending).pending,
          recorded ++ (f a finish pending).recorded⟩ := rfl

variable {finish : Token} {tokens rest : List Token}

/-- After a reading without errors, what comes next decides alone. -/
theorem Reads.bind_eq {p : Parser α} {a : α} (h : p.Reads finish tokens a rest)
    (f : α → Parser β) : (p >>= f) finish tokens = f a finish rest := by
  have he : p finish tokens = ⟨.ok a, rest, []⟩ := h
  rw [bind_apply, he]
  simp

theorem reads_pure {a b : α} :
    (pure a : Parser α).Reads finish tokens b rest ↔ a = b ∧ tokens = rest := by
  simp [Reads, pure_apply]

theorem reads_bind {p : Parser α} {f : α → Parser β} {b : β} :
    (p >>= f).Reads finish tokens b rest ↔
      ∃ a mid, p.Reads finish tokens a mid ∧ (f a).Reads finish mid b rest := by
  constructor
  · intro h
    have hb : (p >>= f) finish tokens = ⟨.ok b, rest, []⟩ := h
    rw [bind_apply] at hb
    rcases hp : p finish tokens with ⟨outcome, pending, recorded⟩
    cases outcome with
    | error e => simp [hp] at hb
    | ok a =>
      simp only [hp, Reading.mk.injEq, List.append_eq_nil_iff] at hb
      obtain ⟨houtcome, hpending, rfl, hrecorded⟩ := hb
      refine ⟨a, pending, hp, ?_⟩
      rw [Reads, ← houtcome, ← hpending, ← hrecorded]
  · rintro ⟨a, mid, hp, hf⟩
    rw [Reads, hp.bind_eq]
    exact hf

theorem Reads.bind {p : Parser α} {f : α → Parser β} {a : α} {b : β} {mid : List Token}
    (hp : p.Reads finish tokens a mid) (hf : (f a).Reads finish mid b rest) :
    (p >>= f).Reads finish tokens b rest :=
  reads_bind.mpr ⟨a, mid, hp, hf⟩

theorem reads_current {a : Token} :
    current.Reads finish tokens a rest ↔ tokens.headD finish = a ∧ tokens = rest := by
  simp [Reads, current]

theorem reads_currentKind {k : Kind} :
    currentKind.Reads finish tokens k rest ↔ (tokens.headD finish).kind = k ∧ tokens = rest := by
  simp [Reads, currentKind]

theorem reads_advance :
    advance.Reads finish tokens () rest ↔ tokens.tail = rest := by
  simp [Reads, advance]

theorem Reads.pure (a : α) (rest : List Token) :
    (pure a : Parser α).Reads finish rest a rest :=
  reads_pure.mpr ⟨rfl, rfl⟩

theorem Reads.current (tokens : List Token) :
    current.Reads finish tokens (tokens.headD finish) tokens :=
  reads_current.mpr ⟨rfl, rfl⟩

theorem Reads.currentKind (tokens : List Token) :
    currentKind.Reads finish tokens (tokens.headD finish).kind tokens :=
  reads_currentKind.mpr ⟨rfl, rfl⟩

theorem Reads.advance (t : Token) (rest : List Token) :
    advance.Reads finish (t :: rest) () rest :=
  reads_advance.mpr rfl

theorem not_reads_unexpected {expected : Expected} {a : α} :
    ¬ (unexpected expected : Parser α).Reads finish tokens a rest := by
  simp [Reads, unexpected]

theorem not_reads_record {e : SyntaxError} :
    ¬ (record e).Reads finish tokens () rest := by
  simp [Reads, record]

theorem reads_accept_some {kinds : List Kind} {t : Token} :
    (accept? kinds).Reads finish tokens (some t) rest ↔ tokens = t :: rest ∧ t.kind ∈ kinds := by
  cases tokens with
  | nil => simp [Reads, accept?]
  | cons t' tokens =>
    by_cases hk : t'.kind ∈ kinds
    · simp only [Reads, accept?, hk, if_true, Reading.mk.injEq, Except.ok.injEq, Option.some.injEq,
        List.cons.injEq, and_true]
      constructor
      · rintro ⟨rfl, rfl⟩
        exact ⟨⟨rfl, rfl⟩, hk⟩
      · exact fun h => h.1
    · simp only [Reads, accept?, hk, if_false, Reading.mk.injEq, Except.ok.injEq, reduceCtorEq,
        false_and, List.cons.injEq, false_iff, not_and]
      rintro ⟨rfl, -⟩
      exact hk

theorem reads_accept_none {kinds : List Kind} :
    (accept? kinds).Reads finish tokens none rest ↔ tokens = rest ∧ NextNot kinds tokens := by
  cases tokens with
  | nil => simp [Reads, accept?]
  | cons t tokens =>
    by_cases hk : t.kind ∈ kinds
    · simp [Reads, accept?, hk]
    · simp [Reads, accept?, hk]

theorem Reads.accept {kinds : List Kind} {t : Token} (h : t.kind ∈ kinds) (rest : List Token) :
    (accept? kinds).Reads finish (t :: rest) (some t) rest :=
  reads_accept_some.mpr ⟨rfl, h⟩

theorem Reads.decline {kinds : List Kind} (h : NextNot kinds rest) :
    (accept? kinds).Reads finish rest none rest :=
  reads_accept_none.mpr ⟨rfl, h⟩

theorem reads_expect {kind : Kind} {context : String} :
    (expect kind context).Reads finish tokens () rest ↔
      ∃ t, t.kind = kind ∧ tokens = t :: rest := by
  simp only [expect, reads_bind]
  constructor
  · rintro ⟨o, mid, ho, hu⟩
    cases o with
    | none => exact absurd hu not_reads_unexpected
    | some t =>
      obtain ⟨rfl, hk⟩ := reads_accept_some.mp ho
      obtain ⟨-, rfl⟩ := reads_pure.mp hu
      exact ⟨t, List.mem_singleton.mp hk, rfl⟩
  · rintro ⟨t, hk, rfl⟩
    exact ⟨some t, rest, .accept (List.mem_singleton.mpr hk) rest, .pure () rest⟩

theorem reads_recover {p : Parser α} {o : Option α} :
    (recover p).Reads finish tokens o rest ↔ ∃ a, o = some a ∧ p.Reads finish tokens a rest := by
  rcases hp : p finish tokens with ⟨outcome, pending, recorded⟩
  cases outcome with
  | error e => simp [Reads, recover, hp]
  | ok a =>
    simp only [Reads, recover, hp, Reading.mk.injEq, Except.ok.injEq]
    constructor
    · rintro ⟨rfl, rfl, rfl⟩
      exact ⟨a, rfl, rfl, rfl, rfl⟩
    · rintro ⟨b, rfl, rfl, rfl, rfl⟩
      exact ⟨rfl, rfl, rfl⟩

end Treewalk.Parser
