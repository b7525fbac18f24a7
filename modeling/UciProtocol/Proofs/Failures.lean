import UciProtocol.Engine.Idle
import UciProtocol.Engine.Scripted
import UciProtocol.Proofs.Handling

/-! Lines that fail leave nothing behind.

An order that is refused is the only call of its line. Everything else that can go wrong does so
before the engine hears of it. A session writes nothing on such a line by itself; the engines that
come with it give out nothing either where they refuse.
-/

set_option autoImplicit false

namespace UciProtocol

namespace Session

variable {State : Type} {engine : Engine Unit State} {session : Session State} {error : LineError}

theorem order_failed {order : Engine.Order} {answer : List String}
    (failed : (session.order engine order answer).outcome = .error error) :
    ∃ state signals refusal, engine.obey session.engine order = .refused state signals refusal ∧
      error = .engine refusal ∧
      session.order engine order answer =
        ⟨{ session with engine := state }, .called (.order order) :: session.heed signals,
          .error error⟩ := by
  rcases order_cases engine session order answer with
    ⟨state, signals, done, step⟩ | ⟨state, signals, refusal, refused, step⟩
  · rw [step] at failed
    cases failed
  · rw [step] at failed ⊢
    cases failed
    exact ⟨state, signals, refusal, refused, rfl, rfl⟩

theorem assign_failed {assignment : Assignment}
    (failed : (session.assign assignment).outcome = .error error) :
    (∃ cause, error = .setting cause) ∧
      session.assign assignment = ⟨session, [], .error error⟩ := by
  rcases assign_cases session assignment with ⟨change, valid, step⟩ | ⟨cause, wrong, step⟩
  · rw [step] at failed
    cases failed
  · rw [step] at failed ⊢
    cases failed
    exact ⟨⟨cause, rfl⟩, rfl⟩

-- A request fails by a setting, which has no effect, or by an order that the engine refuses.
theorem carryOut_failed {request : Request}
    (failed : (session.carryOut engine request).outcome = .error error) :
    ((∃ cause, error = .setting cause) ∧
        session.carryOut engine request = ⟨session, [], .error error⟩) ∨
      ∃ order state signals refusal,
        engine.obey session.engine order = .refused state signals refusal ∧
        error = .engine refusal ∧
        session.carryOut engine request =
          ⟨{ session with engine := state }, .called (.order order) :: session.heed signals,
            .error error⟩ := by
  cases request with
  | uci | stop | ponderHit | quit | xyzzy => cases failed
  | setOption assignment => exact .inl (assign_failed failed)
  | isReady | newGame | position | go => exact .inr ⟨_, order_failed failed⟩

-- Besides its records, a failed line has no events but an order that is refused.
theorem handle_failed {line : String}
    (failed : (session.handle engine line).outcome = .error error) :
    ∃ records : List Log.Record,
      ((∀ refusal, error ≠ .engine refusal) ∧
          session.handle engine line = ⟨session, records.map .logged, .error error⟩) ∨
        ∃ order state signals refusal,
          engine.obey session.engine order = .refused state signals refusal ∧
          error = .engine refusal ∧
          session.handle engine line =
            ⟨{ session with engine := state },
              records.map .logged ++ .called (.order order) :: session.heed signals,
              .error error⟩ := by
  cases read : Request.ofLine line with
  | error cause =>
    rw [handle_invalid engine session read] at failed ⊢
    cases failed
    exact ⟨[heard line], .inl ⟨by simp, rfl⟩⟩
  | ok found =>
    cases found with
    | none =>
      rw [handle_blank engine session read] at failed
      cases failed
    | some request =>
      obtain ⟨invocation, read, made⟩ := Request.ofLine_eq_some read
      obtain ⟨records, remarked⟩ := remarks_records invocation
      rw [handle_valid engine session read made] at failed ⊢
      rcases carryOut_failed failed with
        ⟨⟨cause, rfl⟩, step⟩ | ⟨order, state, signals, refusal, refused, rfl, step⟩
      · refine ⟨heard line :: records, .inl ⟨by simp, ?_⟩⟩
        rw [step, remarked, List.append_nil]
        rfl
      · refine ⟨heard line :: records, .inr ⟨order, state, signals, refusal, refused, rfl, ?_⟩⟩
        rw [step, remarked]
        rfl

end Session

/-- What comes with a refusal: no change of the engine, and nothing that it gives out. -/
def Engine.RefusesInSilence {State : Type} (engine : Engine Unit State) : Prop :=
  ∀ state order next signals refusal,
    engine.obey state order = .refused next signals refusal → next = state ∧ signals = []

theorem Idle.refusesInSilence : (engine : Engine Unit (Idle Unit)).RefusesInSilence := by
  intro idle order next signals refusal refused
  cases order with
  | getReady | newGame => cases refused
  | setPosition fen moves =>
    simp only [engine, obey] at refused
    split at refused
    · cases refused
    · cases refused
      exact ⟨rfl, rfl⟩
  | go search =>
    simp only [engine, obey] at refused
    split at refused
    · cases refused
      exact ⟨rfl, rfl⟩
    · split at refused <;> cases refused

theorem Scripted.refusesInSilence : (engine : Engine Unit (Scripted Unit)).RefusesInSilence := by
  intro scripted order next signals refusal refused
  simp only [engine] at refused
  split at refused
  · cases refused
    exact ⟨rfl, rfl⟩
  · cases refused

namespace Session

-- An engine that reports before it refuses is heard.
example :
    let engine : Engine Unit Unit :=
      { obey := fun _ _ => .refused () [.report () (.best { move := .null })] (.notReady "")
        notify := fun _ _ => ((), [])
        register := fun _ _ => ((), [])
        unregister := fun _ => ((), []) }
    let session : Session Unit := { engine := (), settings := {} }
    Event.output (session.handle engine "isready").events = "bestmove 0000\n" := by
  decide

end Session

end UciProtocol
