import UciProtocol.Proofs.CheckedReading
import UciProtocol.Proofs.IdleInputs
import UciProtocol.Proofs.ReportFigures
import UciProtocol.Proofs.Runs
import UciProtocol.Proofs.SpelledNumbers

/-! Runs that never leave their bounds.

A run of the idle engine is followed once more, and comes to nothing where a line is read out of
its bounds, where a move that is written leaves the board or a sum of bytes overflows on it, where
a line takes no byte off the source, or where the lines do not end. It never does, whatever the
bytes: every move that the engine holds has been read from a text, and stays on the board.
-/

set_option autoImplicit false

namespace UciProtocol

def add? (first second : UInt8) : Option UInt8 :=
  if first.toNat + second.toNat < 256 then some (first + second) else none

theorem add?_eq {first second : UInt8} (fits : first.toNat + second.toNat < 256) :
    add? first second = some (first + second) :=
  if_pos fits

example : add? 97 159 = none := by decide

/-! ### What is written -/

namespace Square

def checkedText (square : Square) : Option String := do
  let file ← add? 'a'.toUInt8 square.file
  let rank ← add? square.rank 1
  return String.ofList (.ofUInt8 file :: Nat.toDigits 10 rank.toNat)

theorem checkedText_eq {square : Square} (inside : square.OnBoard) :
    square.checkedText = some square.text := by
  have file : square.file.toNat < 8 := UInt8.lt_iff_toNat_lt.1 inside.1
  have rank : square.rank.toNat < 8 := UInt8.lt_iff_toNat_lt.1 inside.2
  have a : 'a'.toUInt8.toNat = 97 := rfl
  have one : (1 : UInt8).toNat = 1 := rfl
  have letter : 'a'.toUInt8.toNat + square.file.toNat < 256 := by omega
  have number : square.rank.toNat + (1 : UInt8).toNat < 256 := by omega
  rw [checkedText, add?_eq letter, add?_eq number]
  rfl

end Square

namespace Move

/-- Write a move, which has to stay on the board. -/
def checkedText (chess960 : Bool) (move : Move) : Option String :=
  if ¬ move.OnBoard then none
  else if move = null then some "0000"
  else
    match move with
    | plain origin target promotion => do
      let origin ← origin.checkedText
      let target ← target.checkedText
      return origin ++ target ++ String.ofList (promotion.map Promotion.letter).toList
    | castling king rook => do
      let origin ← king.checkedText
      let target ← (if chess960 then rook else kingTarget king rook).checkedText
      return origin ++ target

theorem checkedText_eq {move : Move} (inside : move.OnBoard) (chess960 : Bool) :
    move.checkedText chess960 = some (move.text chess960) := by
  unfold checkedText text
  rw [if_neg (not_not_intro inside)]
  split
  · rfl
  · cases move with
    | plain origin target promotion =>
      simp [Square.checkedText_eq inside.1, Square.checkedText_eq inside.2]
    | castling king rook =>
      simp [Square.checkedText_eq inside.1, Square.checkedText_eq (onBoard_target inside chess960)]

end Move

theorem mapM_eq_some {α β : Type} {f : α → Option β} {g : α → β} {items : List α}
    (each : ∀ item ∈ items, f item = some (g item)) : items.mapM f = some (items.map g) := by
  induction items with
  | nil => rfl
  | cons item items ih =>
    obtain ⟨first, rest⟩ := List.forall_mem_cons.1 each
    rw [List.mapM_cons, first, ih rest]
    rfl

namespace Report

def checkedLines (display : Display) (report : Report) : Option (List String) := do
  let _ ← report.moves.mapM (Move.checkedText display.chess960)
  return report.lines display

theorem checkedLines_eq {report : Report} (inside : ∀ move ∈ report.moves, move.OnBoard)
    (display : Display) : report.checkedLines display = some (report.lines display) := by
  rw [checkedLines, mapM_eq_some fun move member => Move.checkedText_eq (inside move member) _]
  rfl

end Report

namespace Engine.Signal

variable {Responder : Type}

def OnBoard : Signal Responder → Prop
  | report _ said => ∀ move ∈ said.moves, move.OnBoard
  | log _ => True

def checkedEvents (display : Display) (sink : Sink) : Signal Responder → Option (List Event)
  | report _ said => (said.checkedLines display).map sink.sendAll
  | log record => some [.logged record]

theorem checkedEvents_eq {signal : Signal Responder} (inside : signal.OnBoard) (display : Display)
    (sink : Sink) : signal.checkedEvents display sink = some (signal.events display sink) := by
  cases signal with
  | report _ said => rw [checkedEvents, Report.checkedLines_eq inside]; rfl
  | log record => rfl

end Engine.Signal

/-! ### The idle engine -/

namespace Idle

open Engine

def checkedReadMove (text : String) : Option (Except Refusal Move) := do
  match ← Move.checkedOfText text with
  | some move => return .ok move
  | none => return .error (.invalidMove text)

def checkedReadMoves : List String → Option (Except Refusal (List Move))
  | [] => some (.ok [])
  | text :: rest => do
    match ← checkedReadMove text with
    | .ok move => return (← checkedReadMoves rest).map (move :: ·)
    | .error refusal => return .error refusal

def checkedReadPosition (fen : String) (moves : List String) :
    Option (Except Refusal (List Move)) :=
  if (Text.tokens fen).length < 4 then some (.error (.invalidFen fen)) else checkedReadMoves moves

def checkedAnswer (search : Search) : Option (Except Refusal Move) :=
  match search.searchMoves with
  | [] => some (.ok .null)
  | text :: _ => checkedReadMove text

theorem checkedReadMove_eq (text : String) : checkedReadMove text = some (readMove text) := by
  rw [checkedReadMove, Move.checkedOfText_eq, readMove]
  cases Move.ofText? text <;> rfl

theorem checkedReadMoves_eq (texts : List String) :
    checkedReadMoves texts = some (readMoves texts) := by
  induction texts with
  | nil => rfl
  | cons text rest ih =>
    rw [checkedReadMoves, checkedReadMove_eq, ih, readMoves]
    cases readMove text <;> rfl

theorem checkedReadPosition_eq (fen : String) (moves : List String) :
    checkedReadPosition fen moves = some (readPosition fen moves) := by
  rw [checkedReadPosition, readPosition, checkedReadMoves_eq]
  split <;> rfl

theorem checkedAnswer_eq (search : Search) : checkedAnswer search = some (answer search) := by
  unfold checkedAnswer answer
  cases search.searchMoves with
  | nil => rfl
  | cons text rest => exact checkedReadMove_eq text

variable {Responder : Type}

def checkedObey (idle : Idle Responder) : Order → Option (Reply Responder (Idle Responder))
  | .getReady => some (.done idle [])
  | .newGame => some (.done { idle with fen := startFen, moves := [], held := none } [])
  | .setPosition fen moves => do
    match ← checkedReadPosition fen moves with
    | .ok moves => return .done { idle with fen, moves } []
    | .error refusal => return .refused idle [] refusal
  | .go search => do
    match ← checkedAnswer search with
    | .error refusal => return .refused idle [] refusal
    | .ok move =>
      if search.infinite ∨ search.ponder then return .done { idle with held := some move } []
      else return .done idle (idle.result move)

theorem checkedObey_eq (idle : Idle Responder) (order : Order) :
    idle.checkedObey order = some (idle.obey order) := by
  cases order with
  | getReady | newGame => rfl
  | setPosition fen moves =>
    rw [checkedObey, checkedReadPosition_eq, obey]
    cases readPosition fen moves <;> rfl
  | go search =>
    rw [checkedObey, checkedAnswer_eq, obey]
    cases answer search with
    | error refusal => rfl
    | ok move =>
      dsimp only [Option.bind_eq_bind, Option.bind_some]
      split <;> rfl

theorem result_onBoard (idle : Idle Responder) {move : Move} (inside : move.OnBoard) :
    ∀ signal ∈ idle.result move, signal.OnBoard := by
  unfold result
  cases idle.responder with
  | none => simp [Signal.OnBoard]
  | some responder => simp [Signal.OnBoard, Report.moves, BestMove.moves, inside]

/-- An engine that holds only what it has read reports no move that leaves the board. -/
theorem Sound.signals_onBoard {idle : Idle Responder} (sound : idle.Sound)
    (input : Input Responder) : ∀ signal ∈ (engine.react idle input).signals, signal.OnBoard := by
  have step := reacts idle input
  generalize engine.react idle input = effect at step
  cases step with
  | answered picks => exact idle.result_onBoard picks.isRead.onBoard
  | released =>
    intro signal member
    obtain ⟨move, held, member⟩ := List.mem_flatMap.1 member
    exact idle.result_onBoard (sound.held move (Option.mem_toList.1 held)).onBoard signal member
  | ready | renewed | placed | misplaced | held | refused | registered | unregistered =>
    exact List.forall_mem_nil _

end Idle

/-! ### Sessions -/

namespace Session

variable (session : Session (Idle Unit))

def checkedHeed (signals : List (Engine.Signal Unit)) : Option (List Event) :=
  (signals.mapM (Engine.Signal.checkedEvents session.settings.display session.sink)).map
    List.flatten

def checkedOrder (order : Engine.Order) (answer : List String) : Option (Step (Idle Unit)) := do
  match ← session.engine.checkedObey order with
  | .done state signals =>
    let heard ← session.checkedHeed signals
    return ⟨{ session with engine := state },
      .called (.order order) :: (heard ++ session.sink.sendAll answer), .ok .handled⟩
  | .refused state signals refusal =>
    let heard ← session.checkedHeed signals
    return ⟨{ session with engine := state }, .called (.order order) :: heard,
      .error (.engine refusal)⟩

def checkedNotify (notice : Engine.Notice) : Option (Step (Idle Unit)) := do
  let (state, signals) := session.engine.release
  let heard ← session.checkedHeed signals
  return ⟨{ session with engine := state }, .called (.notice notice) :: heard, .ok .handled⟩

def checkedCarryOut : Request → Option (Step (Idle Unit))
  | .isReady => session.checkedOrder .getReady ["readyok"]
  | .newGame => session.checkedOrder .newGame []
  | .position position => session.checkedOrder (.setPosition position.fen position.moves) []
  | .go search => session.checkedOrder (.go search) []
  | .stop => session.checkedNotify .stop
  | .ponderHit => session.checkedNotify .ponderHit
  | request => some (session.carryOut Idle.engine request)

def checkedHandle (line : String) : Option (Step (Idle Unit)) := do
  let heard := Event.logged (Log.Component.dispatch.record .debug s!">> {line}")
  match ← Invocation.checkedOfLine line with
  | .error error => return ⟨session, [heard], .error (.request error)⟩
  | .ok none => return ⟨session, [heard], .ok .blank⟩
  | .ok (some invocation) =>
    match Request.ofInvocation invocation with
    | .error error => return ⟨session, [heard], .error (.request error)⟩
    | .ok request =>
      let step ← session.checkedCarryOut request
      return { step with events := heard :: (remarks invocation ++ step.events) }

section
variable {session} (sound : session.engine.Sound)

theorem checkedHeed_eq {signals : List (Engine.Signal Unit)}
    (inside : ∀ signal ∈ signals, signal.OnBoard) :
    session.checkedHeed signals = some (session.heed signals) := by
  rw [checkedHeed, mapM_eq_some fun signal member =>
    Engine.Signal.checkedEvents_eq (inside signal member) _ _]
  rfl

include sound

theorem checkedOrder_eq (order : Engine.Order) (answer : List String) :
    session.checkedOrder order answer = some (session.order Idle.engine order answer) := by
  have inside := sound.signals_onBoard (.order order)
  have own : Idle.engine.obey session.engine order = session.engine.obey order := rfl
  rw [checkedOrder, Idle.checkedObey_eq, Session.order]
  rw [Engine.react, own] at inside
  rw [own]
  cases reply : session.engine.obey order with
  | done state signals | refused state signals =>
    rw [reply] at inside
    simp only [Option.bind_eq_bind, Option.bind_some, checkedHeed_eq inside]
    rfl

theorem checkedNotify_eq (notice : Engine.Notice) :
    session.checkedNotify notice = some (session.notify Idle.engine notice) := by
  have heard : session.checkedHeed session.engine.release.2 =
      some (session.heed session.engine.release.2) :=
    checkedHeed_eq (sound.signals_onBoard (.notice notice))
  rw [checkedNotify]
  dsimp only
  rw [heard]
  rfl

theorem checkedCarryOut_eq (request : Request) :
    session.checkedCarryOut request = some (session.carryOut Idle.engine request) := by
  cases request with
  | isReady | newGame | position | go => exact checkedOrder_eq sound _ _
  | stop | ponderHit => exact checkedNotify_eq sound _
  | uci | setOption | quit | xyzzy => rfl

theorem checkedHandle_eq (line : String) :
    session.checkedHandle line = some (session.handle Idle.engine line) := by
  rw [checkedHandle, Invocation.checkedOfLine_eq, handle]
  simp only [Option.bind_eq_bind, Option.bind_some]
  cases Invocation.ofLine line with
  | error error => rfl
  | ok found =>
    cases found with
    | none => rfl
    | some invocation =>
      dsimp only
      cases Request.ofInvocation invocation with
      | error error => rfl
      | ok request =>
        dsimp only
        rw [checkedCarryOut_eq sound]
        rfl

end

end Session

/-! ### Runs -/

/-- What becomes of a run by a step: it quits, or it goes on, with an error where the step fails. -/
def Step.served {State : Type} (step : Step State) : Served State :=
  match step.outcome with
  | .ok .quit =>
    ⟨step.session,
      step.events ++ [.logged (Log.Component.dispatch.record .info "quit received")], true⟩
  | .ok .blank | .ok .handled => ⟨step.session, step.events, false⟩
  | .error error =>
    ⟨step.session,
      step.events ++
        .logged (Log.Component.dispatch.record .warn error.message) ::
          step.session.sink.send s!"error {error.message}",
      false⟩

theorem Step.served_session {State : Type} (step : Step State) :
    step.served.session = step.session := by
  unfold served
  split <;> rfl

namespace Session

/-- Follow a run for a number of lines, each of which has to take a byte off the source. -/
def checkedRun : Nat → Session (Idle Unit) → Source → Option (Run (Idle Unit))
  | 0, _, _ => none
  | rounds + 1, session, source =>
    match source.read with
    | .ended => some ⟨session, [], .finished⟩
    | .failed => some ⟨session, [], .failed⟩
    | .line bytes rest => do
      if bytes = [] ∨ bytes.length + rest.size ≠ source.size then none
      else
        let served := (← session.checkedHandle (Text.received bytes)).served
        if served.quits then return ⟨served.session, served.events, .finished⟩
        else
          let later ← checkedRun rounds served.session rest
          return { later with events := served.events ++ later.events }

theorem serve_eq_served {State : Type} (engine : Engine Unit State) (session : Session State)
    (bytes : List UInt8) :
    session.serve engine bytes = (session.handle engine (Text.received bytes)).served := rfl

theorem sound_serve {session : Session (Idle Unit)} (sound : session.engine.Sound)
    (bytes : List UInt8) : (session.serve Idle.engine bytes).session.engine.Sound := by
  obtain ⟨inputs, behind⟩ := session.handle_engine Idle.engine (Text.received bytes)
  rw [serve_eq_served, Step.served_session, behind]
  exact sound.after inputs

/-- There are no more lines than bytes, and what is followed is the run. -/
theorem checkedRun_eq {rounds : Nat} {session : Session (Idle Unit)} {source : Source}
    (sound : session.engine.Sound) (enough : source.size < rounds) :
    session.checkedRun rounds source = some (session.run Idle.engine source) := by
  rw [run_eq_serveAll]
  induction rounds generalizing session source with
  | zero => exact absurd enough (Nat.not_lt_zero _)
  | succ rounds ih =>
    -- A line leaves fewer bytes to come, and an engine that is still sound.
    have lines := source.read_lines
    rw [checkedRun]
    cases read : source.read with
    | ended =>
      rw [read] at lines
      rw [lines.1, lines.2]
      rfl
    | failed =>
      rw [read] at lines
      rw [lines.1, lines.2]
      rfl
    | line line rest =>
      rw [read] at lines
      obtain ⟨first, fails⟩ := lines
      have took : ¬ (line = [] ∨ line.length + rest.size ≠ source.size) := by
        simp [Source.read_ne_nil read, Source.read_size read]
      have fewer : rest.size < rounds := Nat.lt_of_lt_of_le (Source.read_smaller read)
        (Nat.le_of_lt_succ enough)
      have later := ih (sound_serve sound line) fewer
      dsimp only
      rw [if_neg took, checkedHandle_eq sound, first, serveAll, ← fails]
      simp only [Option.bind_eq_bind, Option.bind_some, ← serve_eq_served, later]
      by_cases quits : (session.serve Idle.engine line).quits = true
      · rw [if_pos quits, if_pos quits]
        rfl
      · rw [if_neg quits, if_neg quits]
        rfl

/-- Nothing that is run over the idle engine leaves its bounds, whatever has been asked of the
engine before, and whatever the settings. Each line takes a byte at least, so no more lines are read
than there are bytes. A text is cut just where a character begins or at its end, and a number that
is read, for a limit or for a setting, is the one that is written. -/
theorem run_stays_in_bounds (inputs : List (Engine.Input Unit)) (settings : Settings) (sink : Sink)
    (bytes : List UInt8) (size : Source.BufferSize) (fails : Bool) :
    let session : Session (Idle Unit) := ⟨Idle.behind inputs, settings, sink⟩
    let source := Source.ofBytes bytes size fails
    session.checkedRun (bytes.length + 1) source = some (session.run Idle.engine source) ∧
      (∀ (text : List Char) (offset : Nat),
        (Text.cutAt? text offset).isSome ↔ Text.IsBoundary (Text.utf8 text) offset) ∧
      (∀ (keyword text : String) (n : Int32),
        Search.number keyword text = .ok n ↔ Numeral.Spells .int32 text.toList n.toInt) ∧
      ∀ (setting : Setting) (text : String) (n : Int64),
        setting.read text = .ok (.int n) ↔
          setting.Accepts (.int n) ∧ Numeral.Spells .int64 text.toList n.toInt := by
  have length : (Source.ofBytes bytes size fails).size = bytes.length :=
    congrArg List.length (Source.cut_flatten size bytes)
  exact ⟨checkedRun_eq (Idle.sound_behind inputs) (by omega), fun _ _ => Text.cutAt?_isSome_iff,
    fun _ _ _ => Search.number_eq_ok_iff, fun _ _ _ => Setting.read_eq_int_iff⟩

end Session

end UciProtocol
