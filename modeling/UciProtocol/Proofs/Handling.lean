import UciProtocol.Proofs.Requests
import UciProtocol.Session

/-! What becomes of one line.

A line that cannot be read leaves no trace but its record. A line that can be read does what its
request does, behind its record and the remarks on it.
-/

set_option autoImplicit false

namespace UciProtocol

def heard (line : String) : Log.Record := Log.Component.dispatch.record .debug s!">> {line}"

namespace Event

theorem calls_append (front back : List Event) :
    calls (front ++ back) = calls front ++ calls back :=
  List.filterMap_append

theorem records_append (front back : List Event) :
    records (front ++ back) = records front ++ records back :=
  List.filterMap_append

end Event

theorem Session.remarks_records (invocation : Invocation) :
    ∃ records : List Log.Record, Session.remarks invocation = records.map .logged := by
  unfold Session.remarks
  split
  · exact ⟨_, List.map_map.symm⟩
  · exact ⟨[], rfl⟩

namespace Session

variable {State : Type} (engine : Engine Unit State) (session : Session State) {line : String}

theorem order_cases (order : Engine.Order) (answer : List String) :
    (∃ state signals, engine.obey session.engine order = .done state signals ∧
      session.order engine order answer =
        ⟨{ session with engine := state },
          .called (.order order) :: (session.heed signals ++ session.sink.sendAll answer),
          .ok .handled⟩) ∨
    ∃ state signals refusal, engine.obey session.engine order = .refused state signals refusal ∧
      session.order engine order answer =
        ⟨{ session with engine := state }, .called (.order order) :: session.heed signals,
          .error (.engine refusal)⟩ := by
  unfold Session.order
  cases reply : engine.obey session.engine order with
  | done state signals => exact .inl ⟨state, signals, rfl, rfl⟩
  | refused state signals refusal => exact .inr ⟨state, signals, refusal, rfl, rfl⟩

theorem assign_cases (assignment : Assignment) :
    (∃ change, session.settings.change assignment = .ok change ∧
      session.assign assignment =
        ⟨{ session with settings := session.settings.apply change }, [.logged change.record],
          .ok .handled⟩) ∨
    ∃ error, session.settings.change assignment = .error error ∧
      session.assign assignment = ⟨session, [], .error (.setting error)⟩ := by
  unfold assign
  cases session.settings.change assignment with
  | ok change => exact .inl ⟨change, rfl, rfl⟩
  | error error => exact .inr ⟨error, rfl, rfl⟩

theorem carryOut_setOption (assignment : Assignment) :
    session.carryOut engine (.setOption assignment) = session.assign assignment := rfl

theorem handle_invalid {error : RequestError} (invalid : Request.ofLine line = .error error) :
    session.handle engine line = ⟨session, [.logged (heard line)], .error (.request error)⟩ := by
  unfold Request.ofLine at invalid
  unfold handle
  cases read : Invocation.ofLine line with
  | error cause =>
    rw [read] at invalid
    cases invalid
    rfl
  | ok found =>
    cases found with
    | none => rw [read] at invalid; cases invalid
    | some invocation =>
      rw [read] at invalid
      have unmade : Request.ofInvocation invocation = .error error := map_eq_error_iff.1 invalid
      simp only [unmade]
      rfl

theorem handle_blank (blank : Request.ofLine line = .ok none) :
    session.handle engine line = ⟨session, [.logged (heard line)], .ok .blank⟩ := by
  unfold Request.ofLine at blank
  unfold handle
  cases read : Invocation.ofLine line with
  | error cause => rw [read] at blank; cases blank
  | ok found =>
    cases found with
    | none => rfl
    | some invocation =>
      rw [read] at blank
      obtain ⟨_, _, same⟩ := map_eq_ok_iff.1 blank
      cases same

theorem handle_valid {invocation : Invocation} {request : Request}
    (read : Invocation.ofLine line = .ok (some invocation))
    (made : Request.ofInvocation invocation = .ok request) :
    session.handle engine line =
      { session.carryOut engine request with
        events := .logged (heard line) ::
          (remarks invocation ++ (session.carryOut engine request).events) } := by
  unfold handle
  simp only [read, made]
  rfl

theorem handle_request {request : Request} (read : Request.ofLine line = .ok (some request)) :
    (session.handle engine line).session = (session.carryOut engine request).session ∧
      (session.handle engine line).outcome = (session.carryOut engine request).outcome := by
  obtain ⟨invocation, invoked, made⟩ := Request.ofLine_eq_some read
  rw [handle_valid engine session invoked made]
  exact ⟨rfl, rfl⟩

theorem handle_unread (unread : ∀ request, Request.ofLine line ≠ .ok (some request)) :
    (session.handle engine line).session = session ∧
      (session.handle engine line).outcome ≠ .ok .handled := by
  cases read : Request.ofLine line with
  | error error =>
    rw [handle_invalid engine session read]
    exact ⟨rfl, nofun⟩
  | ok found =>
    cases found with
    | none =>
      rw [handle_blank engine session read]
      exact ⟨rfl, nofun⟩
    | some request => exact absurd read (unread request)

-- Before what its request leads to, a line has nothing but records.
theorem handle_events {request : Request} (read : Request.ofLine line = .ok (some request)) :
    ∃ records : List Log.Record, (session.handle engine line).events =
      records.map .logged ++ (session.carryOut engine request).events := by
  obtain ⟨invocation, invoked, made⟩ := Request.ofLine_eq_some read
  obtain ⟨records, remarked⟩ := remarks_records invocation
  refine ⟨heard line :: records, ?_⟩
  rw [handle_valid engine session invoked made, remarked]
  rfl

theorem handle_next (line : String) :
    (∃ request, Request.ofLine line = .ok (some request) ∧
      (session.handle engine line).session = (session.carryOut engine request).session) ∨
    (session.handle engine line).session = session := by
  by_cases found : ∃ request, Request.ofLine line = .ok (some request)
  · obtain ⟨request, read⟩ := found
    exact .inl ⟨request, read, (handle_request engine session read).1⟩
  · exact .inr (handle_unread engine session (not_exists.1 found)).1

end Session

end UciProtocol
