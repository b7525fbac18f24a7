import UciProtocol.Proofs.IdleInputs

/-! What becomes of the searches of the idle engine.

A search is answered at once or held back, and what is held back is the last such search that
nothing has ended. Every search that is begun ends in one way: its move is reported, it is dropped
because there is nobody to report it to, another search takes its place, a new game discards it, or
it is still held back.
-/

set_option autoImplicit false

namespace UciProtocol

def Engine.Signal.isBest {Responder : Type} : Engine.Signal Responder → Bool
  | .report _ (.best _) => true
  | .report _ (.progress _) | .log _ => false

namespace Idle

open Engine

variable {Responder : Type}

/-! ### The search that is held back -/

def Holds (move : Move) : Input Responder → Prop
  | .order (.go search) => search.Holds ∧ search.Picks move
  | _ => False

def Ends : Input Responder → Prop
  | .notice _ | .order .newGame => True
  | .order (.go search) => search.Holds ∧ ∃ move, search.Picks move
  | _ => False

/-- The last search to be held back was for the move, and nothing has ended it. -/
def Waiting (history : List (Input Responder)) (move : Move) : Prop :=
  Latest (Holds move) Ends history

def Attaches : Input Responder → Prop
  | .register _ | .unregister => True
  | _ => False

/-- The responder was the last to be registered, and nothing has been unregistered since. -/
def Attached (history : List (Input Responder)) (responder : Responder) : Prop :=
  Latest (· = .register responder) Attaches history

theorem waiting_concat {history : List (Input Responder)} {input : Input Responder} {move : Move} :
    Waiting (history ++ [input]) move ↔ Holds move input ∨ ¬ Ends input ∧ Waiting history move :=
  latest_concat

theorem attached_concat {history : List (Input Responder)} {input : Input Responder}
    {responder : Responder} :
    Attached (history ++ [input]) responder ↔
      input = .register responder ∨ ¬ Attaches input ∧ Attached history responder :=
  latest_concat

section
variable (idle : Idle Responder) (input : Input Responder)

theorem held_react (move : Move) :
    (engine.react idle input).state.held = some move ↔
      Holds move input ∨ ¬ Ends input ∧ idle.held = some move := by
  have step := reacts idle input
  generalize engine.react idle input = effect at step
  cases step with
  | held picks holds => simp [Holds, Ends, holds, picks.iff_eq]
  | answered picks answers => simp [Holds, Ends, answers]
  | refused unpicked => simp [Holds, Ends, unpicked]
  | ready | renewed | placed | misplaced | released | registered | unregistered =>
    simp [Holds, Ends]

theorem responder_react (responder : Responder) :
    (engine.react idle input).state.responder = some responder ↔
      input = .register responder ∨ ¬ Attaches input ∧ idle.responder = some responder := by
  have step := reacts idle input
  generalize engine.react idle input = effect at step
  cases step <;> simp [Attaches]

end

theorem held_behind (history : List (Input Responder)) (move : Move) :
    (behind history).held = some move ↔ Waiting history move := by
  induction history using List.reverseRecOn with
  | nil => exact iff_of_false (by simp [behind, after]) not_latest_nil
  | append_singleton history input ih =>
    rw [behind_concat, held_react, ih, waiting_concat]

theorem responder_behind (history : List (Input Responder)) (responder : Responder) :
    (behind history).responder = some responder ↔ Attached history responder := by
  induction history using List.reverseRecOn with
  | nil => exact iff_of_false (by simp [behind, after]) not_latest_nil
  | append_singleton history input ih =>
    rw [behind_concat, responder_react, ih, attached_concat]

/-! ### Accounts -/

section
variable (idle : Idle Responder) (input : Input Responder)

def begun : Nat :=
  match input with
  | .order (.go _) => (engine.react idle input).refusal.isNone.toNat
  | _ => 0

def answered : Nat := (engine.react idle input).signals.countP Signal.isBest

/-- The answer that falls due at an input: that of a search that need not wait, or the one that is
held back where the input releases it. -/
def due? : Option Move :=
  match input with
  | .order (.go search) => if search.Holds then none else (answer search).toOption
  | .notice _ => idle.held
  | _ => none

def dropped : Nat := if idle.responder.isNone then (idle.due? input).isSome.toNat else 0

/-- The searches held back that give way to another one. -/
def overwritten : Nat :=
  match input with
  | .order (.go search) =>
    if search.Holds ∧ (engine.react idle input).refusal.isNone then idle.held.isSome.toNat else 0
  | _ => 0

/-- The searches held back that a new game ends. -/
def discarded : Nat :=
  match input with
  | .order .newGame => idle.held.isSome.toNat
  | _ => 0

theorem countP_result (move : Move) :
    (idle.result move).countP Signal.isBest = idle.responder.isSome.toNat := by
  unfold result
  cases idle.responder <;> rfl

-- A search that an input begins or finds held back is accounted for, or it is held back behind it.
theorem balance_react :
    idle.begun input + idle.held.isSome.toNat =
      idle.answered input + idle.dropped input + idle.overwritten input + idle.discarded input +
        (engine.react idle input).state.held.isSome.toNat := by
  have step := reacts idle input
  unfold begun answered dropped overwritten discarded due?
  generalize engine.react idle input = effect at step
  cases step with
  | ready | renewed | placed | misplaced | registered | unregistered => simp
  | held picks holds =>
    simp only [holds, if_true, ite_self, and_self, Option.isNone_none, Option.isSome_none,
      Option.isSome_some, Bool.toNat_false, Bool.toNat_true, List.countP_nil, Nat.zero_add,
      Nat.add_zero]
    exact Nat.add_comm ..
  | refused unpicked => simp [toOption_answer_eq_none unpicked]
  -- Whether there is a responder decides between a report and a dropped answer.
  | released =>
    cases idle.held with
    | none => simp
    | some move =>
      simp only [Option.toList_some, List.flatMap_singleton, countP_result]
      cases idle.responder <;> rfl
  | answered picks answers =>
    simp only [toOption_answer_eq_some_iff.2 picks, countP_result, answers, if_false, false_and]
    cases idle.responder <;> rfl

end

theorem accounts_balance (history : List (Input Responder)) :
    engine.tally begun {} history =
      engine.tally answered {} history + engine.tally dropped {} history +
        engine.tally overwritten {} history + engine.tally discarded {} history +
        (behind history).held.isSome.toNat := by
  induction history using List.reverseRecOn with
  | nil => rfl
  | append_singleton history input ih =>
    have step := balance_react (behind history) input
    have here : engine.after {} history = behind history := rfl
    rw [behind_concat]
    simp only [tally_concat, here]
    omega

/-! ### Reports -/

/-- What signals put out if they report a move: the lines of the report at the responder that is
attached behind a history, and nothing anywhere else. -/
def Reported [DecidableEq Responder] (history : List (Input Responder)) (move : Move)
    (signals : List (Signal Responder)) : Prop :=
  ∀ display responder,
    (Attached history responder → linesAt display responder signals = resultLines move) ∧
    (¬ Attached history responder → linesAt display responder signals = [])

theorem reported_result [DecidableEq Responder] (history : List (Input Responder)) {move : Move}
    (read : move.IsRead) : Reported history move ((behind history).result move) := by
  intro display responder
  rw [← responder_behind]
  unfold result linesAt
  cases attached : (behind history).responder with
  | none => simp
  | some own =>
    constructor
    · rintro ⟨⟩
      simpa using lines_result read display
    · intro other
      have apart : own ≠ responder := fun same => other (congrArg some same)
      simp [apart]

/-- Every search that is begun is accounted for, and what is held back is the last search that has
been, if nothing has ended it. An order to search that need not wait is answered at once, a notice
releases the answer that is held back, and nothing else is reported. -/
theorem answers_each_search_once [DecidableEq Responder] (history : List (Input Responder)) :
    let idle := behind history
    (engine.tally begun {} history =
      engine.tally answered {} history + engine.tally dropped {} history +
        engine.tally overwritten {} history + engine.tally discarded {} history +
        idle.held.isSome.toNat) ∧
    (∀ move, idle.held = some move ↔ Waiting history move) ∧
    (∀ search,
      let effect := engine.react idle (.order (.go search))
      (effect.refusal = none ↔ ∃ move, search.Picks move) ∧
      (effect.refusal ≠ none → effect.signals = [] ∧ effect.state = idle) ∧
      ∀ move, search.Picks move →
        if search.Holds then effect.signals = [] ∧ effect.state.held = some move
        else Reported history move effect.signals ∧ effect.state.held = idle.held) ∧
    (∀ notice,
      let effect := engine.react idle (.notice notice)
      (∀ move, Waiting history move → Reported history move effect.signals) ∧
      ((∀ move, ¬ Waiting history move) → effect.signals = []) ∧ effect.state.held = none) ∧
    ∀ input, (∀ search, input ≠ .order (.go search)) → (∀ notice, input ≠ .notice notice) →
      (engine.react idle input).signals = [] := by
  intro idle
  refine ⟨accounts_balance history, held_behind history, fun search => ?_, fun notice => ?_,
    fun input unsearched unnoticed => ?_⟩
  · have step := reacts idle (.order (.go search))
    generalize engine.react idle (.order (.go search)) = effect at step
    cases step with
    | held picks holds =>
      refine ⟨⟨fun _ => ⟨_, picks⟩, fun _ => rfl⟩, fun refused => absurd rfl refused, ?_⟩
      intro move again
      rw [if_pos holds, picks.unique again]
      exact ⟨rfl, rfl⟩
    | answered picks answers =>
      refine ⟨⟨fun _ => ⟨_, picks⟩, fun _ => rfl⟩, fun refused => absurd rfl refused, ?_⟩
      intro move again
      rw [if_neg answers, picks.unique again]
      exact ⟨reported_result history again.isRead, rfl⟩
    | refused unpicked =>
      refine ⟨iff_of_false (by simp) (not_exists.2 unpicked), fun _ => ⟨rfl, rfl⟩, ?_⟩
      intro move picks
      exact absurd picks (unpicked move)
  · have step := reacts idle (.notice notice)
    generalize engine.react idle (.notice notice) = effect at step
    cases step
    refine ⟨fun move waiting => ?_, fun idling => ?_, rfl⟩
    · have held : idle.held = some move := (held_behind history move).2 waiting
      have read : move.IsRead := (sound_behind history).held move held
      simpa [held] using reported_result history read
    · have none : idle.held = none :=
        Option.eq_none_iff_forall_ne_some.2 fun move held =>
          idling move ((held_behind history move).1 held)
      simp [none]
  · have step := reacts idle input
    generalize engine.react idle input = effect at step
    cases step with
    | ready | renewed | placed | misplaced | registered | unregistered => rfl
    | held | answered | refused => exact absurd rfl (unsearched _)
    | released => exact absurd rfl (unnoticed _)

-- The first search gives way to the second, the third is refused, and the last does not wait.
theorem reports_where_attached_last :
    let history : List (Input Nat) :=
      [.register 0, .order (.go { infinite := true }),
        .order (.go { searchMoves := ["e2e4"], ponder := true }),
        .order (.go { searchMoves := ["d2d9"], infinite := true }), .register 1,
        .order (.go { searchMoves := ["g1f3"] })]
    let signals := (engine.react (behind history) (.notice .stop)).signals
    engine.tally overwritten {} history = 1 ∧
    linesAt ⟨true, true, true⟩ 0 signals = [] ∧
    linesAt ⟨true, true, true⟩ 1 signals =
      ["info depth 1 string no search core attached", "bestmove e2e4"] := by
  intro history signals
  have waiting : Waiting history (.plain ⟨4, 1⟩ ⟨4, 3⟩ none) := (held_behind history _).1 rfl
  have attached : Attached history 1 := (responder_behind history 1).1 rfl
  have apart : ¬ Attached history 0 := fun other => nomatch (responder_behind history 0).2 other
  have ⟨_, _, _, notices, _⟩ := answers_each_search_once history
  have reported := (notices .stop).1 _ waiting ⟨true, true, true⟩
  exact ⟨rfl, (reported 0).2 apart, (reported 1).1 attached⟩

end Idle

end UciProtocol
