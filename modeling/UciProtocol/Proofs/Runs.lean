import UciProtocol.Engine.Idle
import UciProtocol.Proofs.Handling
import UciProtocol.Proofs.SourceLines
import UciProtocol.Session.Run

/-! Runs follow the lines of their source.

A run does to its session what its lines do one by one, up to the first that says nothing but
`quit`. It fails where its source fails before such a line. Neither depends on the pieces in which
the bytes come.
-/

set_option autoImplicit false

namespace UciProtocol

open Text

namespace Event

/-- What is left of the events when nobody reads the log. -/
def effects (events : List Event) : List Event :=
  events.filter fun | logged _ => false | wrote _ | called _ => true

theorem effects_append (front back : List Event) :
    effects (front ++ back) = effects front ++ effects back :=
  List.filter_append front back

theorem effects_logged (record : Log.Record) (events : List Event) :
    effects (logged record :: events) = effects events :=
  rfl

theorem effects_records (records : List Log.Record) (events : List Event) :
    effects (records.map .logged ++ events) = effects events := by
  have silent : effects (records.map .logged) = [] := by simp [effects]
  rw [effects_append, silent, List.nil_append]

theorem output_effects (events : List Event) : output (effects events) = output events := by
  unfold output effects
  rw [List.filterMap_filter]
  congr 2
  funext event
  cases event <;> rfl

theorem calls_effects (events : List Event) : calls (effects events) = calls events := by
  unfold calls effects
  rw [List.filterMap_filter]
  congr 1
  funext event
  cases event <;> rfl

end Event

/-! ### The line that quits -/

-- `quit` takes no keywords, so there may be no other word.
theorem Request.ofLine_quit_iff (line : String) :
    ofLine line = .ok (some .quit) ↔ tokens line = [Command.quit.name] := by
  constructor
  · intro read
    obtain ⟨invocation, invoked, made⟩ := ofLine_eq_some read
    have command : Command.quit = invocation.command := command_of_ofInvocation made
    obtain ⟨words, first, keyed⟩ := Invocation.ofLine_first_word invoked
    rw [← command] at first keyed
    cases words with
    | nil => exact first
    | cons word words => exact absurd (keyed (by decide) word rfl) List.not_mem_nil
  · intro alone
    have apart : Command.quit ≠ .setOption := by decide
    exact ofLine_of_ofInvocation (Invocation.ofLine_groups apart alone (by simp)) rfl

/-! ### The end of a line -/

namespace Text

/-- The line without what ends it. -/
def unended (line : List Char) : String :=
  String.ofList (dropTail (fun c => c = '\n' || c = '\r') line)

theorem unended_append (line : List Char) :
    ∃ back, line = (unended line).toList ++ back ∧ (∀ c ∈ back, c = '\n' ∨ c = '\r') ∧
      ∀ last ∈ (unended line).toList.getLast?, last ≠ '\n' ∧ last ≠ '\r' := by
  let ends : Char → Bool := fun c => c = '\n' || c = '\r'
  refine ⟨(line.reverse.takeWhile ends).reverse, ?_, fun c member => ?_, fun last is => ?_⟩
  · rw [unended, String.toList_ofList]
    exact (dropTail_append ends line).symm
  · have ended : ends c = true :=
      List.all_eq_true.1 List.all_takeWhile c (List.mem_reverse.1 member)
    simpa [ends] using ended
  · rw [unended, String.toList_ofList, dropTail, List.getLast?_reverse] at is
    have stops := List.head?_dropWhile_not ends line.reverse
    rw [Option.mem_def.1 is] at stops
    simpa [ends] using stops

end Text

namespace Session

variable {State : Type} (engine : Engine Unit State)

theorem order_ne_quit (session : Session State) (order : Engine.Order) (answer : List String) :
    (session.order engine order answer).outcome ≠ .ok .quit := by
  rcases order_cases engine session order answer with ⟨_, _, _, step⟩ | ⟨_, _, _, _, step⟩
  all_goals rw [step]; simp

theorem assign_ne_quit (session : Session State) (assignment : Assignment) :
    (session.assign assignment).outcome ≠ .ok .quit := by
  rcases assign_cases session assignment with ⟨_, _, step⟩ | ⟨_, _, step⟩
  all_goals rw [step]; simp

theorem carryOut_quit {session : Session State} {request : Request}
    (quits : (session.carryOut engine request).outcome = .ok .quit) : request = .quit := by
  cases request with
  | quit => rfl
  | uci | stop | ponderHit | xyzzy => cases quits
  | setOption assignment => exact absurd quits (assign_ne_quit session assignment)
  | isReady | newGame | position | go => exact absurd quits (order_ne_quit engine session _ _)

theorem handle_quit_iff (session : Session State) (line : String) :
    (session.handle engine line).outcome = .ok .quit ↔ tokens line = [Command.quit.name] := by
  rw [← Request.ofLine_quit_iff]
  constructor
  · intro quits
    cases read : Request.ofLine line with
    | error cause =>
      rw [handle_invalid engine session read] at quits
      cases quits
    | ok found =>
      cases found with
      | none =>
        rw [handle_blank engine session read] at quits
        cases quits
      | some request =>
        rw [(handle_request engine session read).2] at quits
        rw [carryOut_quit engine quits]
  · intro read
    rw [(handle_request engine session read).2]
    rfl

/-! ### Lines one by one -/

def receive (session : Session State) (line : String) : Session State × List Event :=
  let step := session.handle engine line
  match step.outcome with
  | .ok _ => (step.session, step.events)
  | .error error => (step.session, step.events ++ step.session.sink.send s!"error {error.message}")

def follow (session : Session State) : List String → Session State × List Event
  | [] => (session, [])
  | line :: lines =>
    let next := session.receive engine line
    let last := follow next.1 lines
    (last.1, next.2 ++ last.2)

/-- The lines through the first that says nothing but `quit`. -/
def throughQuit (lines : List String) : List String :=
  lines.take (lines.findIdx (tokens · = [Command.quit.name]) + 1)

theorem throughQuit_quit {line : String} (quits : tokens line = [Command.quit.name])
    (lines : List String) : throughQuit (line :: lines) = [line] := by
  unfold throughQuit
  rw [List.findIdx_cons]
  simp [quits]

theorem throughQuit_other {line : String} (other : tokens line ≠ [Command.quit.name])
    (lines : List String) : throughQuit (line :: lines) = line :: throughQuit lines := by
  unfold throughQuit
  rw [List.findIdx_cons]
  simp [other]

/-- What a run comes to by the lines of its source. -/
def serveAll (fails : Bool) (session : Session State) : List (List UInt8) → Run State
  | [] => ⟨session, [], if fails then .failed else .finished⟩
  | line :: lines =>
    let served := session.serve engine line
    if served.quits then ⟨served.session, served.events, .finished⟩
    else
      let later := serveAll fails served.session lines
      { later with events := served.events ++ later.events }

theorem run_eq_serveAll (session : Session State) (source : Source) :
    session.run engine source = session.serveAll engine source.fails source.lines := by
  -- Along the run: each line that is read takes the first of the lines off the source.
  fun_induction run engine session source with
  | case1 session source ended =>
    obtain ⟨none, works⟩ : source.lines = [] ∧ source.fails = false := by
      simpa only [ended] using source.read_lines
    rw [none, works]
    rfl
  | case2 session source failed =>
    obtain ⟨none, fails⟩ : source.lines = [] ∧ source.fails = true := by
      simpa only [failed] using source.read_lines
    rw [none, fails]
    rfl
  | case3 session source line rest read served quits =>
    have ⟨first, _⟩ : source.lines = line :: rest.lines ∧ rest.fails = source.fails := by
      simpa only [read] using source.read_lines
    rw [first, serveAll]
    exact (if_pos quits).symm
  | case4 session source line rest read served other later ih =>
    have ⟨first, fails⟩ : source.lines = line :: rest.lines ∧ rest.fails = source.fails := by
      simpa only [read] using source.read_lines
    rw [first, serveAll, if_neg other, ← fails, ← ih]

theorem serve_receive (session : Session State) (bytes : List UInt8) :
    (session.serve engine bytes).session = (session.receive engine (received bytes)).1 ∧
    Event.effects (session.serve engine bytes).events =
      Event.effects (session.receive engine (received bytes)).2 ∧
    ((session.serve engine bytes).quits = true ↔
      tokens (received bytes) = [Command.quit.name]) := by
  rw [← handle_quit_iff engine session]
  unfold serve receive
  dsimp only
  -- The two differ in nothing but the record that is logged where a line quits or fails.
  split
  next quits =>
    rw [quits]
    refine ⟨rfl, ?_, by simp⟩
    rw [Event.effects_append]
    exact List.append_nil _
  next blank =>
    rw [blank]
    exact ⟨rfl, rfl, by simp⟩
  next handled =>
    rw [handled]
    exact ⟨rfl, rfl, by simp⟩
  next error failed =>
    rw [failed]
    refine ⟨rfl, ?_, by simp⟩
    rw [Event.effects_append, Event.effects_append, Event.effects_logged]

/-! ### Runs -/

theorem serveAll_follow (fails : Bool) (session : Session State) (lines : List (List UInt8)) :
    let result := session.serveAll engine fails lines
    let followed := session.follow engine (throughQuit (lines.map received))
    result.session = followed.1 ∧ Event.effects result.events = Event.effects followed.2 ∧
    (result.ending = .failed ↔
      fails = true ∧ ∀ line ∈ lines, tokens (received line) ≠ [Command.quit.name]) := by
  induction lines generalizing session with
  | nil => cases fails <;> simp [serveAll, throughQuit, follow]
  | cons line lines ih =>
    -- A line that quits is the last; any other leaves a run of the lines behind it.
    obtain ⟨next, effects, quits⟩ := serve_receive engine session line
    rw [List.map_cons, serveAll]
    by_cases alone : tokens (received line) = [Command.quit.name]
    · rw [throughQuit_quit alone, if_pos (quits.2 alone), follow, follow]
      refine ⟨next, ?_, by simp [alone]⟩
      rw [effects, List.append_nil]
    · obtain ⟨last, later, ending⟩ := ih (session.receive engine (received line)).1
      rw [throughQuit_other alone, if_neg (fun same => alone (quits.1 same)), follow, next]
      refine ⟨last, ?_, ?_⟩
      · rw [Event.effects_append, Event.effects_append, effects, later]
      · rw [ending]
        simp [alone]

/-- A run has the effect of its lines, received one by one through the first that says nothing but
`quit`, however the bytes come in pieces. A line is what a line feed ends, or what is left behind
the last one, unless the source fails there; it is then the run that fails, but for a `quit`. It is
received as the text that its bytes show, without the carriage returns and line feeds at its end. -/
theorem run_follows_lines (session : Session State) (bytes : List UInt8) (size : Source.BufferSize)
    (fails : Bool) :
    let result := session.run engine (.ofBytes bytes size fails)
    let lines := if fails then (byteLines bytes).filter Source.IsClosed else byteLines bytes
    let texts := lines.map fun line => unended (Utf8.decode line)
    let followed := session.follow engine (throughQuit texts)
    ((byteLines bytes).flatten = bytes ∧
      (∀ line ∈ byteLines bytes, line ≠ [] ∧ lineFeed ∉ line.dropLast) ∧
      ∀ line ∈ (byteLines bytes).dropLast, Source.IsClosed line) ∧
    (∀ line ∈ lines, ∃ back, Utf8.decode line = (unended (Utf8.decode line)).toList ++ back ∧
      (∀ c ∈ back, c = '\n' ∨ c = '\r') ∧
      ∀ last ∈ (unended (Utf8.decode line)).toList.getLast?, last ≠ '\n' ∧ last ≠ '\r') ∧
    result.session = followed.1 ∧
    Event.effects result.events = Event.effects followed.2 ∧
    Event.output result.events = Event.output followed.2 ∧
    Event.calls result.events = Event.calls followed.2 ∧
    (result.ending = .failed ↔
      fails = true ∧ ∀ line ∈ byteLines bytes, Source.IsClosed line →
        tokens (unended (Utf8.decode line)) ≠ ["quit"]) ∧
    (∀ pieces : List (List UInt8), pieces.flatten = bytes →
      session.run engine ⟨pieces, fails⟩ = result) ∧
    ∀ other, session.run engine (.ofBytes bytes other fails) = result := by
  intro result lines texts followed
  have whole (pieces : List (List UInt8)) (same : pieces.flatten = bytes) :
      session.run engine ⟨pieces, fails⟩ =
        session.serveAll engine fails (Source.delivered bytes fails) := by
    rw [run_eq_serveAll, ← same]
    rfl
  have cut (other : Source.BufferSize) : session.run engine (.ofBytes bytes other fails) =
      session.serveAll engine fails (Source.delivered bytes fails) :=
    whole _ (Source.cut_flatten other bytes)
  obtain ⟨last, effects, ending⟩ :=
    serveAll_follow engine fails session (Source.delivered bytes fails)
  rw [← cut size] at last effects ending
  refine ⟨Source.byteLines_cut bytes, fun line _ => unended_append _, last, effects, ?_, ?_, ?_,
    fun pieces same => ?_, fun other => ?_⟩
  · rw [← Event.output_effects, effects, Event.output_effects]
    rfl
  · rw [← Event.calls_effects, effects, Event.calls_effects]
    rfl
  · rw [ending]
    cases fails with
    | false => simp
    | true =>
      simp only [Source.delivered, Command.name, if_true, List.mem_filter, decide_eq_true_eq,
        and_imp]
      rfl
  · rw [whole pieces same, ← cut size]
  · rw [cut other, ← cut size]

-- The bytes come two by two. The second line has a byte that is no text and two carriage returns,
-- the last one is not closed.
theorem run_follows_broken_lines :
    let session : Session (Idle Unit) := ⟨{}, {}, .working⟩
    let bytes : List UInt8 :=
      "isready\r\n".toList.map (·.toNat.toUInt8) ++ [97, 255, 13, 13, 10] ++
        "quit".toList.map (·.toNat.toUInt8)
    Event.output (session.run Idle.engine (.ofBytes bytes 2 false)).events =
      "readyok\nerror Unknown command: 'a\ufffd' from line: 'a\ufffd'\n" ∧
    (session.run Idle.engine (.ofBytes bytes 2 true)).ending = .failed := by
  intro session bytes
  obtain ⟨-, -, -, -, output, -⟩ := run_follows_lines Idle.engine session bytes 2 false
  obtain ⟨-, -, -, -, -, -, ending, -⟩ := run_follows_lines Idle.engine session bytes 2 true
  exact ⟨output.trans (by decide), ending.2 (by decide)⟩

end Session

end UciProtocol
