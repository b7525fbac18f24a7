import Mathlib.Data.List.Induction
import UciProtocol.Proofs.Failures
import UciProtocol.Proofs.IdleInputs

/-! Lines that a session handles one after the other.

The lines are entered with what becomes of each of them. A session stands behind its lines where
their steps have led it.
-/

set_option autoImplicit false

namespace UciProtocol

structure Entry (State : Type) where
  line : String
  step : Step State

namespace Entry

variable {State : Type} (entry : Entry State)

def CarriesOut (command : Command) : Prop :=
  entry.step.outcome = .ok .handled ∧ (Text.tokens entry.line).head? = some command.name

def seen : String × Except LineError Outcome × List Event :=
  (entry.line, entry.step.outcome, entry.step.events)

end Entry

namespace Session

variable {State : Type} (engine : Engine Unit State) (session : Session State)

def behind (lines : List String) : Session State :=
  lines.foldl (fun session line => (session.handle engine line).session) session

def entries (session : Session State) : List String → List (Entry State)
  | [] => []
  | line :: lines =>
    let step := session.handle engine line
    ⟨line, step⟩ :: entries step.session lines

theorem behind_concat (lines : List String) (line : String) :
    session.behind engine (lines ++ [line]) =
      ((session.behind engine lines).handle engine line).session := by
  rw [behind, List.foldl_append]
  rfl

theorem entries_concat (lines : List String) (line : String) :
    session.entries engine (lines ++ [line]) =
      session.entries engine lines ++
        [⟨line, (session.behind engine lines).handle engine line⟩] := by
  induction lines generalizing session with
  | nil => rfl
  | cons first lines ih =>
    rw [List.cons_append, entries, ih]
    rfl

theorem length_entries (lines : List String) :
    (session.entries engine lines).length = lines.length := by
  induction lines generalizing session with
  | nil => rfl
  | cons first lines ih => rw [entries, List.length_cons, ih, List.length_cons]

theorem earlier_entry {lines : List String} (line : String) {place : Nat} {entry : Entry State}
    (earlier : entry ∈ (session.entries engine lines)[place]?) :
    entry ∈ (session.entries engine (lines ++ [line]))[place]? := by
  obtain ⟨inside, -⟩ := List.getElem?_eq_some_iff.1 earlier
  rw [entries_concat, List.getElem?_append_left inside]
  exact earlier

theorem last_entry (lines : List String) (line : String) :
    ⟨line, (session.behind engine lines).handle engine line⟩ ∈
      (session.entries engine (lines ++ [line]))[lines.length]? := by
  rw [entries_concat, ← length_entries engine session lines, List.getElem?_concat_length]
  rfl

theorem behind_engine (lines : List String) :
    ∃ inputs, (session.behind engine lines).engine = engine.after session.engine inputs := by
  induction lines using List.reverseRecOn with
  | nil => exact ⟨[], rfl⟩
  | append_singleton lines line ih =>
    obtain ⟨inputs, before⟩ := ih
    obtain ⟨others, step⟩ := handle_engine engine (session.behind engine lines) line
    refine ⟨inputs ++ others, ?_⟩
    rw [behind_concat, step, before, Engine.after_append]

theorem sound_behind {session : Session (Idle Unit)} (sound : session.engine.Sound)
    (lines : List String) : (session.behind Idle.engine lines).engine.Sound := by
  obtain ⟨inputs, reached⟩ := behind_engine Idle.engine session lines
  rw [reached]
  exact sound.after inputs

/-! ### Lines that are carried out -/

variable {engine session} {line : String}

theorem request_of_handled (handled : (session.handle engine line).outcome = .ok .handled) :
    ∃ request, Request.ofLine line = .ok (some request) := by
  by_contra unread
  exact (handle_unread engine session (not_exists.1 unread)).2 handled

theorem carriesOut_iff {request : Request} (read : Request.ofLine line = .ok (some request))
    {command : Command} :
    Entry.CarriesOut ⟨line, session.handle engine line⟩ command ↔
      (session.handle engine line).outcome = .ok .handled ∧ request.command = command := by
  rw [Entry.CarriesOut, Request.head?_tokens read, Option.some.injEq, Command.name_injective.eq_iff]

theorem order_unhandled {session : Session (Idle Unit)} {order : Engine.Order}
    {answer : List String}
    (unhandled : (session.order Idle.engine order answer).outcome ≠ .ok .handled) :
    (session.order Idle.engine order answer).session = session := by
  rcases order_cases Idle.engine session order answer with
    ⟨_, _, _, step⟩ | ⟨_, _, _, refused, step⟩
  · rw [step] at unhandled
    exact absurd rfl unhandled
  · rw [step, (Idle.refusesInSilence _ _ _ _ _ refused).1]

theorem carryOut_unhandled {session : Session (Idle Unit)} {request : Request}
    (unhandled : (session.carryOut Idle.engine request).outcome ≠ .ok .handled) :
    (session.carryOut Idle.engine request).session = session := by
  cases request with
  | uci | stop | ponderHit | xyzzy => exact absurd rfl unhandled
  | quit => rfl
  | isReady | newGame | position | go => exact order_unhandled unhandled
  | setOption assignment =>
    rw [carryOut_setOption] at unhandled ⊢
    rcases assign_cases session assignment with ⟨_, _, step⟩ | ⟨_, _, step⟩
    · rw [step] at unhandled
      exact absurd rfl unhandled
    · rw [step]

/-- A line that is not carried out leaves a session of the idle engine as it was. -/
theorem handle_unhandled {session : Session (Idle Unit)} {line : String}
    (unhandled : (session.handle Idle.engine line).outcome ≠ .ok .handled) :
    (session.handle Idle.engine line).session = session := by
  by_cases found : ∃ request, Request.ofLine line = .ok (some request)
  · obtain ⟨request, read⟩ := found
    obtain ⟨next, outcome⟩ := handle_request Idle.engine session read
    rw [next]
    exact carryOut_unhandled (outcome ▸ unhandled)
  · exact (handle_unread Idle.engine session (not_exists.1 found)).1

end Session

end UciProtocol
