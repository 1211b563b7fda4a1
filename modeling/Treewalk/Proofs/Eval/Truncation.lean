import Treewalk.Proofs.Eval.Composition
import Treewalk.Proofs.Eval.Footprint

set_option autoImplicit false
set_option relaxedAutoImplicit false

/-!
Output that does not fit.

A run that has less room for its output does the same as one that has more, up to the first line
that does not fit. There it stops: what fits of the line is written, and from then on there are no
more events. So less room only cuts off the end of a run.
-/

namespace Treewalk

/-- The world with room for `limit` bytes. -/
def World.limitTo (limit : Nat) (w : World) : World :=
  ⟨w.environment, ⟨w.sink.written, some limit⟩⟩

/-- The recording in a world with room for `limit` bytes. -/
def Recording.limitTo (limit : Nat) (r : Recording) : Recording :=
  ⟨r.world.limitTo limit, r.events⟩

/-- What is written has room in `limit` bytes, and there is room for at least that many. -/
structure Sink.Fits (limit : Nat) (s : Sink) : Prop where
  size_le : s.written.size ≤ limit
  le_limit : ∀ l ∈ s.limit, limit ≤ l

/-- Writing keeps as many bytes as there is room for of all that was ever written, and fails if these
are not all. -/
theorem Sink.write_cases {s : Sink} (h : ∀ l ∈ s.limit, s.written.size ≤ l) (text : String) :
    ((∀ l ∈ s.limit, (s.written ++ text.toUTF8).size ≤ l) ∧
      s.write text = (⟨s.written ++ text.toUTF8, s.limit⟩, true)) ∨
    ∃ l ∈ s.limit, l < (s.written ++ text.toUTF8).size ∧
      s.write text = (⟨(s.written ++ text.toUTF8).extract 0 l, s.limit⟩, false) := by
  obtain ⟨written, limit⟩ := s
  have hsize : (written ++ text.toUTF8).size = written.size + text.utf8ByteSize :=
    ByteArray.size_append
  cases limit with
  | none => exact .inl ⟨by simp, rfl⟩
  | some l =>
    have hl : written.size ≤ l := h l rfl
    by_cases hroom : text.utf8ByteSize ≤ l - written.size
    · have hfits : (written ++ text.toUTF8).size ≤ l := by omega
      refine .inl ⟨by simpa using hfits, ?_⟩
      simp only [write, if_pos hroom]
    · have hlt : l < (written ++ text.toUTF8).size := by omega
      refine .inr ⟨l, rfl, hlt, ?_⟩
      have hall : written.extract 0 l = written := by
        rw [← Nat.max_eq_left hl, ByteArray.extract_zero_max_size]
      simp only [write, if_neg hroom, ByteArray.extract_append, Nat.zero_sub, hall]

/-- Nothing that was written is lost, not even by a write that fails. -/
theorem Sink.exists_write_eq (s : Sink) (text : String) :
    ∃ more, (s.write text).1.written = s.written ++ more := by
  obtain ⟨written, limit⟩ := s
  cases limit with
  | none => exact ⟨_, rfl⟩
  | some l =>
    simp only [write]
    split
    · exact ⟨_, rfl⟩
    · exact ⟨_, rfl⟩

/-- A write with less room has the same effect, or it keeps the bytes up to the limit and fails. -/
theorem Sink.Fits.write {limit : Nat} {s : Sink} (h : s.Fits limit) (text : String) :
    ((s.write text).1.Fits limit ∧ (⟨s.written, some limit⟩ : Sink).write text =
      (⟨(s.write text).1.written, some limit⟩, (s.write text).2)) ∨
    limit < (s.write text).1.written.size ∧ (⟨s.written, some limit⟩ : Sink).write text =
      (⟨(s.write text).1.written.extract 0 limit, some limit⟩, false) := by
  have hwide : ∀ l ∈ s.limit, s.written.size ≤ l := fun l hl =>
    Nat.le_trans h.size_le (h.le_limit l hl)
  have hnarrow : ∀ l ∈ some limit, s.written.size ≤ l := by simpa using h.size_le
  rcases Sink.write_cases hwide text with ⟨hfits, hfull⟩ | ⟨l, hl, hlt, hfull⟩
  · rw [hfull]
    rcases Sink.write_cases (s := ⟨s.written, some limit⟩) hnarrow text with
      ⟨hfits', hcut⟩ | ⟨l, hl, hlt, hcut⟩
    · exact .inl ⟨⟨hfits' limit rfl, h.le_limit⟩, hcut⟩
    · obtain rfl : limit = l := Option.some.inj hl
      exact .inr ⟨hlt, hcut⟩
  · -- Both writes fail, and the one with more room may have kept more.
    have hle : limit ≤ l := h.le_limit l hl
    rw [hfull]
    rcases Sink.write_cases (s := ⟨s.written, some limit⟩) hnarrow text with
      ⟨hfits', hcut⟩ | ⟨l', hl', hlt', hcut⟩
    · have hfits : (s.written ++ text.toUTF8).size ≤ limit := hfits' limit rfl
      omega
    · obtain rfl : limit = l' := Option.some.inj hl'
      have hsize : ((s.written ++ text.toUTF8).extract 0 l).size = l := by
        rw [ByteArray.size_extract]
        omega
      rcases Nat.eq_or_lt_of_le hle with rfl | hlt''
      · exact .inl ⟨⟨Nat.le_of_eq hsize, h.le_limit⟩, hcut⟩
      · refine .inr ⟨by rwa [hsize], ?_⟩
        rw [hcut, ByteArray.extract_extract]
        simp [Nat.min_eq_left hle]

/-- A recording that goes on from another one. -/
structure Recording.Extends (r r' : Recording) : Prop where
  events : r.events <+: r'.events
  written : ∃ more, r'.world.sink.written = r.world.sink.written ++ more

theorem Recording.Extends.refl (r : Recording) : r.Extends r :=
  ⟨List.prefix_refl _, ByteArray.empty, ByteArray.append_empty.symm⟩

theorem Recording.Extends.trans {r r' r'' : Recording} (h : r.Extends r') (h' : r'.Extends r'') :
    r.Extends r'' := by
  obtain ⟨more, hmore⟩ := h.written
  obtain ⟨more', hmore'⟩ := h'.written
  refine ⟨h.events.trans h'.events, more ++ more', ?_⟩
  rw [hmore', hmore, ByteArray.append_assoc]

instance : Std.Refl Recording.Extends :=
  ⟨.refl⟩

instance : Trans Recording.Extends Recording.Extends Recording.Extends :=
  ⟨.trans⟩

/-- The second recording is the first up to the line that does not fit, and what fits of that line is
the last that it has written. -/
structure CutOff (limit : Nat) (r r' : Recording) : Prop where
  events : ∃ before place text after, r'.events = before ++ [⟨place, .writes text⟩] ∧
    r.events = before ++ ⟨place, .writes text⟩ :: after
  size_lt : limit < r.world.sink.written.size
  written_eq : r'.world.sink.written = r.world.sink.written.extract 0 limit

theorem CutOff.extend {limit : Nat} {r r₁ r' : Recording} (h : CutOff limit r r')
    (hr : r.Extends r₁) : CutOff limit r₁ r' := by
  obtain ⟨before, place, text, after, hcut, hevents⟩ := h.events
  obtain ⟨rest, hrest⟩ := hr.events
  obtain ⟨more, hmore⟩ := hr.written
  have hlt := h.size_lt
  refine ⟨⟨before, place, text, after ++ rest, hcut, ?_⟩, ?_, ?_⟩
  · rw [← hrest, hevents, List.append_assoc, List.cons_append]
  · rw [hmore, ByteArray.size_append]
    omega
  · -- the bytes up to the limit were there before
    have hzero : limit - r.world.sink.written.size = 0 := by omega
    rw [h.written_eq, hmore, ByteArray.extract_append, hzero, Nat.zero_sub, ByteArray.extract_same,
      ByteArray.append_empty]

namespace Traced

variable {α β : Type} {limit : Nat}

/-- How a computation ends with less room, beside how it ends with more: in the same way, as far as
everything fits, and otherwise with a failure to write. -/
inductive Truncated (limit : Nat) :
    EStateM.Result Halt Recording α → EStateM.Result Halt Recording α → Prop where
  | ok (a : α) {r : Recording} (h : r.world.sink.Fits limit) :
    Truncated limit (.ok a r) (.ok a (r.limitTo limit))
  | error (stop : Halt) {r : Recording} (h : r.world.sink.Fits limit) :
    Truncated limit (.error stop r) (.error stop (r.limitTo limit))
  | cutOk (a : α) {r r' : Recording} (h : CutOff limit r r') :
    Truncated limit (.ok a r) (.error (.error .sinkFull) r')
  | cutError (stop : Halt) {r r' : Recording} (h : CutOff limit r r') :
    Truncated limit (.error stop r) (.error (.error .sinkFull) r')

/-- A computation that only goes on from what there is, and that less room only cuts off. -/
structure Truncates (limit : Nat) (m : Traced α) : Prop where
  extends_final : Moves Recording.Extends m
  truncated : ∀ r : Recording, r.world.sink.Fits limit → Truncated limit (m r) (m (r.limitTo limit))

/-- Once the run with less room has stopped, the other one goes on alone. -/
theorem Truncated.of_cutOff {m : Traced α} (hm : Moves Recording.Extends m) {r r' : Recording}
    (h : CutOff limit r r') : Truncated limit (m r) (.error (.error .sinkFull) r') := by
  have hr : r.Extends (finalState m r) := hm r
  rw [finalState] at hr
  cases hresult : m r with
  | ok a r₁ =>
    rw [hresult] at hr
    exact .cutOk a (h.extend hr)
  | error stop r₁ =>
    rw [hresult] at hr
    exact .cutError stop (h.extend hr)

theorem Truncates.pure (a : α) : Truncates limit (Pure.pure a) :=
  ⟨.pure a, fun _ hr => .ok a hr⟩

theorem Truncates.throw (stop : Halt) :
    Truncates limit (MonadExcept.throw stop : Traced α) :=
  ⟨.throw stop, fun _ hr => .error stop hr⟩

theorem Truncates.bind {m : Traced α} {f : α → Traced β} (hm : Truncates limit m)
    (hf : ∀ a, Truncates limit (f a)) : Truncates limit (m >>= f) := by
  refine ⟨hm.extends_final.bind fun a => (hf a).extends_final, fun r hr => ?_⟩
  have hfirst := hm.truncated r hr
  show Truncated limit (EStateM.bind m f r) (EStateM.bind m f (r.limitTo limit))
  unfold EStateM.bind
  generalize m r = result at hfirst
  generalize m (r.limitTo limit) = result' at hfirst
  cases hfirst with
  | ok a h => exact (hf a).truncated _ h
  | error stop h => exact .error stop h
  | cutOk a h => exact .of_cutOff (hf a).extends_final h
  | cutError stop h => exact .cutError stop h

theorem Truncates.note (place : Place) (action : Action) : Truncates limit (note place action) := by
  constructor
  · rintro ⟨world, events⟩
    exact ⟨List.prefix_append _ _, ByteArray.empty, ByteArray.append_empty.symm⟩
  · rintro ⟨world, events⟩ hr
    exact .ok () hr

theorem Truncates.lookUp (place : Place) (m : Evaluation α) : Truncates limit (lookUp place m) := by
  constructor
  · rintro ⟨⟨env, sink⟩, events⟩
    simp only [finalState, Traced.lookUp]
    cases m env with
    | ok a env' => exact ⟨List.prefix_append _ _, ByteArray.empty, ByteArray.append_empty.symm⟩
    | error e env' => exact ⟨List.prefix_append _ _, ByteArray.empty, ByteArray.append_empty.symm⟩
  · rintro ⟨⟨env, sink⟩, events⟩ hr
    simp only [Traced.lookUp, Recording.limitTo, World.limitTo]
    cases m env with
    | ok a env' => exact .ok a hr
    | error e env' => exact .error _ hr

theorem Truncates.ofExcept (result : Except RuntimeError α) :
    Truncates limit (ofExcept result) := by
  cases result with
  | ok a => exact .pure a
  | error e => exact .throw _

theorem Truncates.define (name : String) (value : Value) :
    Truncates limit (lift (Run.define name value)) :=
  ⟨fun _ => ⟨List.prefix_refl _, ByteArray.empty, ByteArray.append_empty.symm⟩,
    fun _ hr => .ok () hr⟩

theorem Truncates.writeLine (place : Place) (text : String) :
    Truncates limit (writeLine place text) := by
  constructor
  · rintro ⟨⟨env, sink⟩, events⟩
    show Recording.Extends _ (finalState (lift (Run.writeLine text))
      ⟨⟨env, sink⟩, events ++ [⟨place, .writes text⟩]⟩)
    have hwritten := sink.exists_write_eq (text ++ "\n")
    simp only [finalState, lift, Run.writeLine]
    generalize sink.write (text ++ "\n") = outcome at hwritten
    obtain ⟨sink', answer⟩ := outcome
    cases answer with
    | true => exact ⟨List.prefix_append _ _, hwritten⟩
    | false => exact ⟨List.prefix_append _ _, hwritten⟩
  · rintro ⟨⟨env, sink⟩, events⟩ hr
    show Truncated limit
      (lift (Run.writeLine text) ⟨⟨env, sink⟩, events ++ [⟨place, .writes text⟩]⟩)
      (lift (Run.writeLine text) ⟨⟨env, sink.written, some limit⟩,
        events ++ [⟨place, .writes text⟩]⟩)
    have hsink : sink.Fits limit := hr
    have hwrite := hsink.write (text ++ "\n")
    simp only [lift, Run.writeLine]
    generalize sink.write (text ++ "\n") = outcome at hwrite
    obtain ⟨sink', answer⟩ := outcome
    rcases hwrite with ⟨hfits, hcut⟩ | ⟨hlt, hcut⟩
    · rw [hcut]
      cases answer with
      | true => exact .ok () hfits
      | false => exact .error _ hfits
    · rw [hcut]
      cases answer with
      | true => exact .cutOk () ⟨⟨events, place, text, [], rfl, rfl⟩, hlt, rfl⟩
      | false => exact .cutError _ ⟨⟨events, place, text, [], rfl, rfl⟩, hlt, rfl⟩

theorem Truncates.inScope {m : Traced α} (hm : Truncates limit m) :
    Truncates limit (inScope m) := by
  constructor
  · rintro ⟨⟨env, sink⟩, events⟩
    have hinner := hm.extends_final ⟨⟨env.enter, sink⟩, events⟩
    simp only [finalState, Traced.inScope] at hinner ⊢
    cases h : m ⟨⟨env.enter, sink⟩, events⟩ with
    | ok a r =>
      rw [h] at hinner
      exact ⟨hinner.events, hinner.written⟩
    | error stop r =>
      rw [h] at hinner
      exact ⟨hinner.events, hinner.written⟩
  · rintro ⟨⟨env, sink⟩, events⟩ hr
    have hinner := hm.truncated ⟨⟨env.enter, sink⟩, events⟩ hr
    simp only [Traced.inScope, Recording.limitTo, World.limitTo] at hinner ⊢
    generalize m ⟨⟨env.enter, sink⟩, events⟩ = result at hinner
    generalize m ⟨⟨env.enter, ⟨sink.written, some limit⟩⟩, events⟩ = result' at hinner
    cases hinner with
    | ok a h => exact .ok a h
    | error stop h => exact .error stop h
    | cutOk a h => exact .cutOk a ⟨h.events, h.size_lt, h.written_eq⟩
    | cutError stop h => exact .cutError stop ⟨h.events, h.size_lt, h.written_eq⟩

/-- Less room only cuts off the end of what statements do. -/
theorem compositional_truncates (limit : Nat) :
    Compositional fun _ m => Truncates limit m where
  pure := .pure
  outOfRounds := .throw _
  bind := .bind
  note := .note
  lookUp := .lookUp
  ofExcept := .ofExcept
  writeLine := .writeLine
  define := .define
  inScope := .inScope

/-- How a recorded run ends, without its events, is how the run ends. -/
theorem finalState_eq_world {m : Traced α} {n : Run α} (h : Erases m n) (r : Recording) :
    finalState n r.world = (finalState m r).world := by
  rw [finalState, finalState, ← h r]
  cases m r with
  | ok a r' => rfl
  | error stop r' => rfl

end Traced

/-- The end of a run in a world with room for `limit` bytes. -/
def Run.limitEnd {α : Type} (limit : Nat) :
    EStateM.Result Halt World α → EStateM.Result Halt World α
  | .ok a w => .ok a (w.limitTo limit)
  | .error stop w => .error stop (w.limitTo limit)

open Traced

theorem Program.truncates_trace (limit rounds : Nat) (p : Program) :
    Truncates limit (p.trace rounds) :=
  p.holds_traceFrom (compositional_truncates limit) rounds 0

/-- Less room for output only cuts off a run. With room for `limit` bytes instead of more, or instead of
no limit, a program still comes to an end if it did. If all of its output has room, then it ends in
the same way, with the same output and in the same environment. Otherwise it ends with the failure to
write, and its output is the first `limit` bytes. The line that does not fit is then the last event
of its recorded run, and the first events of the other run are the same up to there: nothing is
executed or written after it. -/
theorem less_room_cuts_off (rounds : Nat) (p : Program) (w : World) (limit : Nat)
    (hwritten : w.sink.written.size ≤ limit) (hlimit : ∀ l ∈ w.sink.limit, limit ≤ l) :
    let output := (finalState (p.exec rounds) w).sink.written
    let events := (finalState (p.trace rounds) ⟨w, []⟩).events
    let eventsCut := (finalState (p.trace rounds) ⟨w.limitTo limit, []⟩).events
    (∀ start, Traced.forget (p.trace rounds ⟨start, []⟩) = p.exec rounds start) ∧
    ((∀ final, p.exec rounds w ≠ .error .outOfRounds final) →
      ∀ final, p.exec rounds (w.limitTo limit) ≠ .error .outOfRounds final) ∧
    (output.size ≤ limit →
      p.exec rounds (w.limitTo limit) = Run.limitEnd limit (p.exec rounds w) ∧
        eventsCut = events) ∧
    (limit < output.size →
      (∃ final, p.exec rounds (w.limitTo limit) = .error (.error .sinkFull) final ∧
        final.sink.written = output.extract 0 limit) ∧
      ∃ before place text after, eventsCut = before ++ [⟨place, .writes text⟩] ∧
        events = before ++ ⟨place, .writes text⟩ :: after) := by
  intro output events eventsCut
  have herases := p.erases_trace rounds
  have hcut : Truncated limit (p.trace rounds ⟨w, []⟩) (p.trace rounds ⟨w.limitTo limit, []⟩) :=
    (p.truncates_trace limit rounds).truncated ⟨w, []⟩ ⟨hwritten, hlimit⟩
  have houtput : output = (finalState (p.trace rounds) ⟨w, []⟩).world.sink.written := by
    rw [← finalState_eq_world herases]
  refine ⟨fun start => herases ⟨start, []⟩, ?_⟩
  rw [← herases ⟨w, []⟩, ← herases ⟨w.limitTo limit, []⟩]
  simp only [houtput, events, eventsCut, finalState]
  generalize p.trace rounds ⟨w, []⟩ = full at hcut
  generalize p.trace rounds ⟨w.limitTo limit, []⟩ = cut at hcut
  cases hcut with
  | ok a h =>
    refine ⟨fun _ final hstop => ?_, fun _ => ⟨rfl, rfl⟩, fun hlt => ?_⟩
    · cases hstop
    · exact absurd h.size_le (Nat.not_le_of_lt hlt)
  | error stop h =>
    refine ⟨fun hends final hstop => ?_, fun _ => ⟨rfl, rfl⟩, fun hlt => ?_⟩
    · cases hstop
      exact hends _ rfl
    · exact absurd h.size_le (Nat.not_le_of_lt hlt)
  | cutOk a h | cutError stop h =>
    refine ⟨fun _ final hstop => ?_, fun hle => ?_, fun _ => ?_⟩
    · cases hstop
    · exact absurd hle (Nat.not_le_of_lt h.size_lt)
    · exact ⟨⟨_, rfl, h.written_eq⟩, h.events⟩

/-- `{ print "é"; print "b"; }` with room for one byte, which is not enough for the first character. -/
theorem less_room_cuts_off_character :
    let p : Program := [.block [.print (.literal (.string "é")), .print (.literal (.string "b"))]]
    let w : World := ⟨.empty, .empty none⟩
    let output := (finalState (p.exec 1) w).sink.written
    w.sink.written.size ≤ 1 ∧ (∀ l ∈ w.sink.limit, 1 ≤ l) ∧ 1 < output.size ∧
      ∃ final, p.exec 1 (w.limitTo 1) = .error (.error .sinkFull) final ∧
        final.sink.written = output.extract 0 1 := by
  intro p w output
  have hwritten : w.sink.written.size ≤ 1 := by decide
  have hlimit : ∀ l ∈ w.sink.limit, 1 ≤ l := by simp [w, Sink.empty]
  have hlt : 1 < output.size := by decide +kernel
  exact ⟨hwritten, hlimit, hlt, ((less_room_cuts_off 1 p w 1 hwritten hlimit).2.2.2 hlt).1⟩

end Treewalk
