import Treewalk.Proofs.Session.Outcomes
import Treewalk.Proofs.Session.Requests

set_option autoImplicit false
set_option relaxedAutoImplicit false

/-!
What a session remembers.

The reports that a session holds are those about its latest request. Requests that run nothing, since
they only inspect a source or since there are reports about it, do not touch the world. Whether they
were made cannot be told from the requests that follow.
-/

namespace Treewalk

namespace Session

/-- Whether the request asks for a source to be run. -/
def Request.asksToRun : Request → Bool
  | .run _ _ | .runLine _ _ => true
  | .scan _ | .parse _ | .parseLine _ | .takeDiagnostics => false

/-- The reports about the source of a request, as this kind of request reads it. -/
def Request.reports : Request → List Diagnostic
  | .run _ source => programReports source
  | .runLine _ source => entryReports source
  | .scan source => (Scan.ofSource source).diagnostics
  | .parse source => programReports source
  | .parseLine source => entryReports source
  | .takeDiagnostics => []

/-- A request that was answered: its outcome, if it asked for a run, the world before and after it, and
the reports that the session then held. -/
structure Reply where
  request : Request
  outcome : Option Outcome
  before : World
  after : World
  diagnostics : List Diagnostic

/-- Answers a request and notes the answer. -/
def reply (s : Session) (request : Request) : Reply where
  request := request
  outcome := (s.handle request).1
  before := s.world
  after := (s.handle request).2.world
  diagnostics := (s.handle request).2.diagnostics

/-- The replies to requests made one after another. -/
def log (s : Session) : List Request → List Reply
  | [] => []
  | request :: rest => s.reply request :: (s.handle request).2.log rest

/-- Nothing was run: the request did not ask for it, or there were reports. -/
def Reply.IsIdle (r : Reply) : Prop :=
  r.request.asksToRun = false ∨ r.outcome = some .staticErrors

/-- What a request did: how it ended, and the world it found and left. -/
def Reply.effect (r : Reply) : Request × Option Outcome × World × World :=
  (r.request, r.outcome, r.before, r.after)

/-- The entries of a list that are marked. -/
def marked {α : Type} : List Bool → List α → List α
  | true :: marks, a :: rest => a :: marked marks rest
  | false :: marks, _ :: rest => marked marks rest
  | _, _ => []

theorem handle_diagnostics (s : Session) (request : Request) :
    (s.handle request).2.diagnostics = request.reports := by
  cases request with
  | run rounds source => exact run_diagnostics rounds s source
  | runLine rounds source => exact runLine_diagnostics rounds s source
  | scan source => rfl
  | parse source => rfl
  | parseLine source => rfl
  | takeDiagnostics => rfl

theorem handle_eq_staticErrors_iff (s : Session) (request : Request) :
    (s.handle request).1 = some .staticErrors ↔
      request.asksToRun = true ∧ request.reports ≠ [] := by
  cases request with
  | run rounds source =>
    rw [handle, Prod.map_fst, Option.some.injEq, run_eq_submit, submit_eq_staticErrors_iff]
    exact (and_iff_right rfl).symm
  | runLine rounds source =>
    rw [handle, Prod.map_fst, Option.some.injEq, runLine_eq_submit, submit_eq_staticErrors_iff]
    exact (and_iff_right rfl).symm
  | _ => simp [handle, Request.asksToRun]

theorem submit_world_of_ne_nil {rounds : Nat} {s : Session} {reports : List Diagnostic}
    {entry : Entry} (h : reports ≠ []) : (s.submit rounds reports entry).2.world = s.world := by
  rw [submit_of_ne_nil h]

/-- A request that runs nothing does not touch the world. -/
theorem handle_world_of_isIdle {s : Session} {request : Request} (h : (s.reply request).IsIdle) :
    (s.handle request).2.world = s.world := by
  have hreports : request.asksToRun = true → request.reports ≠ [] := by
    intro hasks
    rcases h with hnot | hstatic
    · exact absurd (hnot.symm.trans hasks) Bool.false_ne_true
    · exact ((s.handle_eq_staticErrors_iff request).mp hstatic).2
  cases request with
  | run rounds source =>
    rw [handle, Prod.map_snd, id, run_eq_submit]
    exact submit_world_of_ne_nil (hreports rfl)
  | runLine rounds source =>
    rw [handle, Prod.map_snd, id, runLine_eq_submit]
    exact submit_world_of_ne_nil (hreports rfl)
  | scan source => rfl
  | parse source => rfl
  | parseLine source => rfl
  | takeDiagnostics => rfl

theorem submit_congr {s s' : Session} (h : s.world = s'.world) (rounds : Nat)
    (reports : List Diagnostic) (entry : Entry) :
    s.submit rounds reports entry = s'.submit rounds reports entry := by
  have heq : { s with diagnostics := reports } = { s' with diagnostics := reports } := by rw [h]
  rw [submit, submit, heq]

/-- What a request does depends on the world alone, not on the reports that the session holds. -/
theorem effect_reply_congr {s s' : Session} (h : s.world = s'.world) (request : Request) :
    (s.reply request).effect = (s'.reply request).effect := by
  have hhandle : (s.handle request).1 = (s'.handle request).1 ∧
      (s.handle request).2.world = (s'.handle request).2.world := by
    cases request with
    | run rounds source =>
      simp only [handle, run_eq_submit, submit_congr h, and_self]
    | runLine rounds source =>
      simp only [handle, runLine_eq_submit, submit_congr h, and_self]
    | scan source => exact ⟨rfl, h⟩
    | parse source => exact ⟨rfl, h⟩
    | parseLine source => exact ⟨rfl, h⟩
    | takeDiagnostics => exact ⟨rfl, h⟩
  simp only [Reply.effect, reply, h, hhandle]

/-- Without some of the requests that ran nothing, the others do what they did. The two sessions may
hold different reports, which is why they are told apart. -/
theorem effects_marked {s s' : Session} (h : s.world = s'.world) (requests : List Request)
    (marks : List Bool) (hidle : ∀ r ∈ marked (marks.map not) (s.log requests), r.IsIdle) :
    (s'.log (marked marks requests)).map Reply.effect =
      (marked marks (s.log requests)).map Reply.effect := by
  induction requests generalizing s s' marks with
  | nil => cases marks with
    | nil => rfl
    | cons mark marks => cases mark <;> rfl
  | cons request rest ih =>
    cases marks with
    | nil => rfl
    | cons mark marks =>
      cases mark with
      | false =>
        have hworld : (s.handle request).2.world = s.world :=
          handle_world_of_isIdle (hidle _ List.mem_cons_self)
        exact ih (hworld.trans h) marks fun r hr => hidle r (List.mem_cons_of_mem _ hr)
      | true =>
        have heffect := effect_reply_congr h request
        have hworld : (s.handle request).2.world = (s'.handle request).2.world :=
          congrArg (fun effect => effect.2.2.2) heffect
        have hrest := ih hworld marks hidle
        simp only [marked, log, List.map_cons, heffect, hrest]

theorem exists_reply_of_mem_log {s : Session} {requests : List Request} {r : Reply}
    (h : r ∈ s.log requests) : ∃ (s' : Session) (request : Request), r = s'.reply request := by
  induction requests generalizing s with
  | nil => contradiction
  | cons request rest ih =>
    rcases List.mem_cons.mp h with rfl | hrest
    · exact ⟨s, request, rfl⟩
    · exact ih hrest

/-- Requests that run nothing leave no trace. The reports held after a request are those about its
source, whatever came before. A run fails for reports if and only if there are some, and the world is
then as it was. And the requests that ran nothing, or any of them, can be left out: each of the others
ends as it did, finds the same world and leaves the same world behind. -/
theorem idle_requests_leave_no_trace (s : Session) (requests : List Request) :
    (∀ r ∈ s.log requests,
      r.diagnostics = r.request.reports ∧
      (r.outcome = some .staticErrors ↔ r.request.asksToRun = true ∧ r.diagnostics ≠ []) ∧
      (r.outcome = some .staticErrors → r.after = r.before)) ∧
    ∀ marks : List Bool, (∀ r ∈ marked (marks.map not) (s.log requests), r.IsIdle) →
      (s.log (marked marks requests)).map Reply.effect =
        (marked marks (s.log requests)).map Reply.effect := by
  refine ⟨fun r hr => ?_, fun marks hidle => effects_marked rfl requests marks hidle⟩
  obtain ⟨s', request, rfl⟩ := exists_reply_of_mem_log hr
  have hdiagnostics : (s'.reply request).diagnostics = request.reports :=
    s'.handle_diagnostics request
  refine ⟨hdiagnostics, ?_, fun hstatic => handle_world_of_isIdle (.inr hstatic)⟩
  rw [hdiagnostics]
  exact s'.handle_eq_staticErrors_iff request

end Session

end Treewalk
