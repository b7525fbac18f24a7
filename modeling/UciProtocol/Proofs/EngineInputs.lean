import UciProtocol.Proofs.Handling

/-! Engines and what is asked of them, one thing after the other.

A line of a session asks of its engine at most one thing, and changes it in no other way.
-/

set_option autoImplicit false

namespace UciProtocol

/-- Something in a history sets, and nothing behind it ends. -/
def Latest {α : Type} (sets ends : α → Prop) (history : List α) : Prop :=
  ∃ before item later, history = before ++ item :: later ∧ sets item ∧ ∀ other ∈ later, ¬ ends other

theorem not_latest_nil {α : Type} {sets ends : α → Prop} : ¬ Latest sets ends [] := by
  rintro ⟨before, item, later, same, -⟩
  cases before <;> cases same

theorem latest_concat {α : Type} {sets ends : α → Prop} {history : List α} {item : α} :
    Latest sets ends (history ++ [item]) ↔ sets item ∨ ¬ ends item ∧ Latest sets ends history := by
  constructor
  · rintro ⟨before, first, later, same, set, quiet⟩
    rcases List.eq_nil_or_concat later with rfl | ⟨later, last, rfl⟩
    · obtain ⟨-, rfl⟩ := List.append_singleton_inj.1 same
      exact .inl set
    · rw [List.concat_eq_append] at same quiet
      rw [← List.cons_append, ← List.append_assoc] at same
      obtain ⟨rfl, rfl⟩ := List.append_singleton_inj.1 same
      exact .inr ⟨quiet item (by simp), before, first, later, rfl, set,
        fun other member => quiet other (by simp [member])⟩
  · rintro (set | ⟨quiet, before, first, later, rfl, set, rest⟩)
    · exact ⟨history, item, [], rfl, set, by simp⟩
    · refine ⟨before, first, later ++ [item], by simp, set, fun other member => ?_⟩
      rcases List.mem_append.1 member with earlier | last
      · exact rest other earlier
      · exact List.mem_singleton.1 last ▸ quiet

namespace Engine

inductive Input (Responder : Type) where
  | order (order : Order)
  | notice (notice : Notice)
  | register (responder : Responder)
  | unregister
  deriving DecidableEq, Repr

structure Effect (Responder State : Type) where
  state : State
  signals : List (Signal Responder) := []
  refusal : Option Refusal := none

variable {Responder State : Type} (engine : Engine Responder State) (state : State)

def react : Input Responder → Effect Responder State
  | .order order =>
    match engine.obey state order with
    | .done state signals => { state, signals }
    | .refused state signals refusal => { state, signals, refusal := some refusal }
  | .notice notice =>
    let (state, signals) := engine.notify state notice
    { state, signals }
  | .register responder =>
    let (state, signals) := engine.register state responder
    { state, signals }
  | .unregister =>
    let (state, signals) := engine.unregister state
    { state, signals }

def after (history : List (Input Responder)) : State :=
  history.foldl (fun state input => (engine.react state input).state) state

/-- Count at every input of a history, in view of the state that it meets. -/
def tally (count : State → Input Responder → Nat) (state : State) : List (Input Responder) → Nat
  | [] => 0
  | input :: later => count state input + tally count (engine.react state input).state later

theorem after_append (history later : List (Input Responder)) :
    engine.after state (history ++ later) = engine.after (engine.after state history) later :=
  List.foldl_append

theorem after_concat (history : List (Input Responder)) (input : Input Responder) :
    engine.after state (history ++ [input]) =
      (engine.react (engine.after state history) input).state :=
  after_append engine state history [input]

theorem tally_concat (count : State → Input Responder → Nat) (history : List (Input Responder))
    (input : Input Responder) :
    engine.tally count state (history ++ [input]) =
      engine.tally count state history + count (engine.after state history) input := by
  induction history generalizing state with
  | nil => exact Nat.add_comm ..
  | cons first history ih =>
    rw [List.cons_append, tally, ih, tally, Nat.add_assoc]
    rfl

def linesAt [DecidableEq Responder] (display : Display) (responder : Responder)
    (signals : List (Signal Responder)) : List String :=
  signals.flatMap fun
    | .report own report => if own = responder then report.lines display else []
    | .log _ => []

end Engine

namespace Session

variable {State : Type} (engine : Engine Unit State) (session : Session State)

theorem order_engine (order : Engine.Order) (answer : List String) :
    (session.order engine order answer).session.engine =
      (engine.react session.engine (.order order)).state := by
  unfold Session.order Engine.react
  dsimp only
  split
  next same => rw [same]
  next same => rw [same]

def asks : Request → Option (Engine.Input Unit)
  | .isReady => some (.order .getReady)
  | .newGame => some (.order .newGame)
  | .position position => some (.order (.setPosition position.fen position.moves))
  | .go search => some (.order (.go search))
  | .stop => some (.notice .stop)
  | .ponderHit => some (.notice .ponderHit)
  | .uci | .setOption _ | .quit | .xyzzy => none

theorem carryOut_engine (request : Request) :
    (session.carryOut engine request).session.engine =
      engine.after session.engine (asks request).toList := by
  cases request with
  | isReady | newGame | position | go => exact order_engine engine session _ _
  | uci | stop | ponderHit | quit | xyzzy => rfl
  | setOption assignment =>
    rw [carryOut_setOption]
    rcases assign_cases session assignment with ⟨_, _, step⟩ | ⟨_, _, step⟩
    all_goals
      rw [step]
      rfl

theorem handle_engine (line : String) :
    ∃ inputs, (session.handle engine line).session.engine = engine.after session.engine inputs := by
  rcases handle_next engine session line with ⟨request, -, next⟩ | next <;> rw [next]
  · exact ⟨_, carryOut_engine engine session request⟩
  · exact ⟨[], rfl⟩

end Session

end UciProtocol
