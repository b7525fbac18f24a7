import Mathlib.Data.List.Induction
import UciProtocol.Engine.Idle
import UciProtocol.Proofs.EngineInputs
import UciProtocol.Proofs.MoveTexts

/-! What the idle engine makes of what is asked of it.

An order that it refuses leaves it as it was. What it holds has been read: the moves it keeps are
written as they were given, whatever the display.
-/

set_option autoImplicit false

namespace UciProtocol

/-- The move that a search is answered with: the first one that it is to look at, or the null
move. -/
def Search.Picks (search : Search) (move : Move) : Prop :=
  (search.searchMoves = [] ∧ move = .null) ∨
    ∃ text rest, search.searchMoves = text :: rest ∧ Move.ofText? text = some move

def Search.Holds (search : Search) : Prop := search.infinite = true ∨ search.ponder = true

instance (search : Search) : Decidable search.Holds := inferInstanceAs (Decidable (_ ∨ _))

def Move.IsRead (move : Move) : Prop := ∃ text, Move.ofText? text = some move

theorem Move.isRead_null : Move.null.IsRead := ⟨"0000", by decide⟩

theorem Move.IsRead.onBoard {move : Move} (read : move.IsRead) : move.OnBoard := by
  obtain ⟨_, read⟩ := read
  exact onBoard_of_ofText? read

/-- What is read is written in the same way in both notations. -/
theorem Move.IsRead.text_eq {move : Move} (read : move.IsRead) (chess960 : Bool) :
    move.text chess960 = move.text false := by
  obtain ⟨text, read⟩ := read
  rw [text_of_ofText? read, text_of_ofText? read]

theorem Search.Picks.isRead {search : Search} {move : Move} (picks : search.Picks move) :
    move.IsRead := by
  rcases picks with ⟨-, rfl⟩ | ⟨text, -, -, read⟩
  · exact Move.isRead_null
  · exact ⟨text, read⟩

theorem Search.Picks.unique {search : Search} {move other : Move} (picks : search.Picks move)
    (again : search.Picks other) : move = other := by
  rcases picks with ⟨none, rfl⟩ | ⟨text, rest, first, read⟩ <;>
    rcases again with ⟨none', rfl⟩ | ⟨text', rest', first', read'⟩
  · rfl
  · cases none.symm.trans first'
  · cases first.symm.trans none'
  · cases first.symm.trans first'
    exact Option.some.inj (read.symm.trans read')

theorem Search.Picks.iff_eq {search : Search} {move : Move} (picks : search.Picks move)
    (other : Move) : search.Picks other ↔ move = other := by
  constructor
  · exact picks.unique
  · rintro rfl
    exact picks

namespace Idle

open Engine

/-! ### Reading -/

section
variable {text fen : String} {texts : List String} {move : Move} {moves : List Move}
  {refusal : Refusal} {search : Search}

theorem readMove_eq_ok_iff : readMove text = .ok move ↔ Move.ofText? text = some move := by
  unfold readMove
  cases Move.ofText? text <;> simp

theorem readMove_of_not_isText (wrong : ¬ Move.IsText text) :
    readMove text = .error (.invalidMove text) := by
  unfold readMove
  cases read : Move.ofText? text with
  | none => rfl
  | some move => exact absurd (Move.isText_iff.2 ⟨move, read⟩) wrong

theorem answer_eq_ok_iff : answer search = .ok move ↔ search.Picks move := by
  unfold answer Search.Picks
  cases search.searchMoves with
  | nil => simp [eq_comm]
  | cons text rest => simp [readMove_eq_ok_iff]

theorem toOption_answer_eq_some_iff :
    (answer search).toOption = some move ↔ search.Picks move := by
  rw [← answer_eq_ok_iff]
  cases answer search <;> simp [Except.toOption]

theorem toOption_answer_eq_none (unpicked : ∀ move, ¬ search.Picks move) :
    (answer search).toOption = none :=
  Option.eq_none_iff_forall_ne_some.2 fun move found =>
    unpicked move (toOption_answer_eq_some_iff.1 found)

theorem readMoves_eq_ok_iff :
    readMoves texts = .ok moves ↔ texts.map Move.ofText? = moves.map some := by
  induction texts generalizing moves with
  | nil => cases moves <;> simp [readMoves]
  | cons text texts ih =>
    rw [readMoves]
    cases read : readMove text with
    | ok move =>
      rw [readMove_eq_ok_iff] at read
      cases moves with
      | nil => simp [Except.bind, map_eq_ok_iff]
      | cons first moves => simp [Except.bind, map_eq_ok_iff, ih, read, and_comm]
    | error refusal =>
      have unread (first : Move) : Move.ofText? text ≠ some first := by
        intro found
        cases read.symm.trans (readMove_eq_ok_iff.2 found)
      cases moves <;> simp [Except.bind, unread]

theorem exists_readMoves_iff :
    (∃ moves, readMoves texts = .ok moves) ↔ ∀ text ∈ texts, Move.IsText text := by
  simp only [readMoves_eq_ok_iff, Move.isText_iff]
  induction texts with
  | nil => exact iff_of_true ⟨[], rfl⟩ (by simp)
  | cons text texts ih =>
    rw [List.forall_mem_cons, ← ih]
    constructor
    · rintro ⟨moves, read⟩
      cases moves with
      | nil => cases read
      | cons move moves =>
        obtain ⟨first, rest⟩ := List.cons.inj read
        exact ⟨⟨move, first⟩, moves, rest⟩
    · rintro ⟨⟨move, first⟩, moves, rest⟩
      exact ⟨move :: moves, congrArg₂ List.cons first rest⟩

-- Of several texts that are no moves the first is named.
theorem readMoves_of_not_isText {front back : List String}
    (right : ∀ other ∈ front, Move.IsText other) (wrong : ¬ Move.IsText text) :
    readMoves (front ++ text :: back) = .error (.invalidMove text) := by
  induction front with
  | nil =>
    rw [List.nil_append, readMoves, readMove_of_not_isText wrong]
    rfl
  | cons first front ih =>
    obtain ⟨move, read⟩ := Move.isText_iff.1 (right first (by simp))
    have rest := ih fun other member => right other (by simp [member])
    rw [List.cons_append, readMoves, readMove_eq_ok_iff.2 read]
    exact map_eq_error_iff.2 rest

end

/-! ### Reactions -/

/-- What the idle engine can make of an input. -/
inductive Reacts {Responder : Type} (idle : Idle Responder) :
    Input Responder → Effect Responder (Idle Responder) → Prop where
  | ready : Reacts idle (.order .getReady) { state := idle }
  | renewed :
      Reacts idle (.order .newGame)
        { state := { idle with fen := startFen, moves := [], held := none } }
  | placed {fen : String} {texts : List String} {moves : List Move} :
      readPosition fen texts = .ok moves →
      Reacts idle (.order (.setPosition fen texts)) { state := { idle with fen, moves } }
  | misplaced {fen : String} {texts : List String} {refusal : Refusal} :
      readPosition fen texts = .error refusal →
      Reacts idle (.order (.setPosition fen texts)) { state := idle, refusal := some refusal }
  | held {search : Search} {move : Move} : search.Picks move → search.Holds →
      Reacts idle (.order (.go search)) { state := { idle with held := some move } }
  | answered {search : Search} {move : Move} : search.Picks move → ¬ search.Holds →
      Reacts idle (.order (.go search)) { state := idle, signals := idle.result move }
  | refused {search : Search} {refusal : Refusal} : (∀ move, ¬ search.Picks move) →
      Reacts idle (.order (.go search)) { state := idle, refusal := some refusal }
  | released {notice : Notice} :
      Reacts idle (.notice notice)
        { state := { idle with held := none }, signals := idle.held.toList.flatMap idle.result }
  | registered {responder : Responder} :
      Reacts idle (.register responder) { state := { idle with responder := some responder } }
  | unregistered : Reacts idle .unregister { state := { idle with responder := none } }

theorem reacts {Responder : Type} (idle : Idle Responder) (input : Input Responder) :
    Reacts idle input (engine.react idle input) := by
  cases input with
  | order order =>
    cases order with
    | getReady => exact .ready
    | newGame => exact .renewed
    | setPosition fen texts =>
      simp only [react, engine, obey]
      cases read : readPosition fen texts with
      | ok moves => exact .placed read
      | error refusal => exact .misplaced read
    | go search =>
      simp only [react, engine, obey]
      cases read : answer search with
      | ok move =>
        have picks := answer_eq_ok_iff.1 read
        by_cases holds : search.infinite = true ∨ search.ponder = true
        · simp only [if_pos holds]
          exact .held picks holds
        · simp only [if_neg holds]
          exact .answered picks holds
      | error refusal =>
        refine .refused fun move picks => ?_
        cases read.symm.trans (answer_eq_ok_iff.2 picks)
  | notice notice =>
    have released : engine.react idle (.notice notice) =
        { state := { idle with held := none },
          signals := idle.held.toList.flatMap idle.result } := by
      obtain ⟨fen, moves, held, responder⟩ := idle
      cases held with
      | none => rfl
      | some move => simp [react, engine, release]
    rw [released]
    exact .released
  | register responder => exact .registered
  | unregister => exact .unregistered

/-! ### What the engine holds -/

section
variable {Responder : Type}

structure Sound (idle : Idle Responder) : Prop where
  fields : 4 ≤ (Text.tokens idle.fen).length
  moves : ∀ move ∈ idle.moves, move.IsRead
  held : ∀ move ∈ idle.held, move.IsRead

theorem startFen_fields : 4 ≤ (Text.tokens startFen).length := by decide

theorem sound_fresh : Sound ({} : Idle Responder) where
  fields := startFen_fields
  moves := by simp
  held := by simp

theorem readPosition_eq_ok_iff {fen : String} {texts : List String} {moves : List Move} :
    readPosition fen texts = .ok moves ↔
      4 ≤ (Text.tokens fen).length ∧ texts.map Move.ofText? = moves.map some := by
  unfold readPosition
  by_cases short : (Text.tokens fen).length < 4
  · rw [if_pos short]
    simp [Nat.not_le.2 short]
  · rw [if_neg short, readMoves_eq_ok_iff]
    simp [Nat.not_lt.1 short]

theorem Sound.react {idle : Idle Responder} (sound : idle.Sound) (input : Input Responder) :
    (engine.react idle input).state.Sound := by
  have step := reacts idle input
  generalize engine.react idle input = effect at step
  cases step with
  | ready | misplaced | answered | refused => exact sound
  | registered | unregistered => exact ⟨sound.fields, sound.moves, sound.held⟩
  | renewed => exact ⟨startFen_fields, by simp, by simp⟩
  | released => exact ⟨sound.fields, sound.moves, by simp⟩
  | placed read =>
    obtain ⟨fields, written⟩ := readPosition_eq_ok_iff.1 read
    refine ⟨fields, fun move member => ?_, sound.held⟩
    have inside := List.mem_map_of_mem (f := some) member
    rw [← written] at inside
    obtain ⟨text, -, read⟩ := List.mem_map.1 inside
    exact ⟨text, read⟩
  | held picks holds =>
    refine ⟨sound.fields, sound.moves, ?_⟩
    rintro _ ⟨⟩
    exact picks.isRead

theorem Sound.after {idle : Idle Responder} (sound : idle.Sound)
    (history : List (Input Responder)) : (engine.after idle history).Sound := by
  induction history using List.reverseRecOn with
  | nil => exact sound
  | append_singleton history input ih =>
    rw [after_concat]
    exact ih.react input

def behind (history : List (Input Responder)) : Idle Responder := engine.after {} history

theorem behind_concat (history : List (Input Responder)) (input : Input Responder) :
    behind (history ++ [input]) = (engine.react (behind history) input).state :=
  after_concat ..

theorem sound_behind (history : List (Input Responder)) : (behind history).Sound :=
  sound_fresh.after history

end

/-! ### What is reported -/

def resultLines (move : Move) : List String :=
  ["info depth 1 string no search core attached", "bestmove " ++ move.text false]

/-- The report of a move that has been read is the same at every display. -/
theorem lines_result {move : Move} (read : move.IsRead) (display : Display) :
    (Report.progress [{ depth := some 0, comment := "no search core attached" }]).lines display ++
      (Report.best { move }).lines display = resultLines move := by
  have info : ({ depth := some 0, comment := "no search core attached" } : Progress).line display =
      "info depth 1 string no search core attached" := by
    obtain ⟨chess960, wdl, movesLeft⟩ := display
    cases wdl <;> cases movesLeft <;> rfl
  have best : ({ move } : BestMove).line display = "bestmove " ++ move.text false := by
    rw [BestMove.line, read.text_eq]
    rfl
  simp only [Report.lines, List.map_cons, List.map_nil, info, best, resultLines]
  rfl

end Idle

end UciProtocol
