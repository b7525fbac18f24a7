import UciProtocol.Proofs.HandledLines

/-! The position of the idle engine.

It is the one stated by the last `position` line that has been carried out since the last new game,
and the start position if there is none. A line states a position by the words that it gives to its
keywords; whether it is refused can be told from these words alone.
-/

set_option autoImplicit false

namespace UciProtocol

open Text

namespace Position

/-! ### What words state -/

/-- The words given to a keyword of `position`, none where it does not stand. -/
def Gives (words : List String) (keyword : String) (given : List String) : Prop :=
  Group.GivenLast Command.position.keywords words keyword given ∨ keyword ∉ words ∧ given = []

/-- The words behind `position` state a position: just one of `fen` and `startpos` stands among
them, and these are the words given to `fen` and to `moves`. -/
structure Stated (words given texts : List String) : Prop where
  single : "fen" ∈ words ↔ "startpos" ∉ words
  fen : Gives words "fen" given
  moves : Gives words "moves" texts

/-- The position that words given to `fen` stand for. Without any it is the start position. -/
def baseText (given : List String) : String :=
  if given = [] then startFen else " ".intercalate given

def Short (given : List String) : Prop := given ≠ [] ∧ given.length < 4

instance (given : List String) : Decidable (Short given) := inferInstanceAs (Decidable (_ ∧ _))

section
variable {words given : List String}

theorem Gives.subset {keyword : String} (gives : Gives words keyword given) : given ⊆ words := by
  rcases gives with last | ⟨-, rfl⟩
  · exact last.subset
  · exact List.nil_subset words

theorem Gives.unique {keyword : String} {other : List String}
    (keyed : keyword ∈ Command.position.keywords) (gives : Gives words keyword given)
    (again : Gives words keyword other) : given = other := by
  rcases gives with last | ⟨absent, rfl⟩ <;> rcases again with last' | ⟨absent', rfl⟩
  · have first := (Group.last?_split keyed words given).2 last
    exact Option.some.inj (first.symm.trans ((Group.last?_split keyed words other).2 last'))
  · exact absurd (Group.exists_givenLast_iff.1 ⟨given, last⟩) absent'
  · exact absurd (Group.exists_givenLast_iff.1 ⟨other, last'⟩) absent
  · rfl

theorem value_gives (words : List String) (keyword : String)
    (keyed : keyword ∈ Command.position.keywords) :
    let arguments := Arguments.ofGroups
      (Group.split (Command.position.keywords.contains ·) words).2
    ∃ given, Gives words keyword given ∧ arguments.value keyword = " ".intercalate given := by
  intro arguments
  unfold Arguments.value
  by_cases member : keyword ∈ words
  · obtain ⟨given, last⟩ := Group.exists_givenLast_iff.2 member
    have found := (Invocation.get?_split_groups words keyword _).2 ⟨keyed, given, last, rfl⟩
    exact ⟨given, .inl last, by rw [found]; rfl⟩
  · have none : arguments.get? keyword = none := by
      cases found : arguments.get? keyword with
      | none => rfl
      | some value =>
        obtain ⟨_, given, last, _⟩ := (Invocation.get?_split_groups words keyword value).1 found
        exact absurd (Group.exists_givenLast_iff.1 ⟨given, last⟩) member
    exact ⟨[], .inr ⟨member, rfl⟩, by rw [none]; rfl⟩

theorem length_tokens_baseText (solid : ∀ word ∈ given, IsWord word) :
    (tokens (baseText given)).length < 4 ↔ Short given := by
  unfold baseText Short
  by_cases empty : given = []
  · rw [if_pos empty]
    exact iff_of_false (Nat.not_lt.2 Idle.startFen_fields) fun short => short.1 empty
  · rw [if_neg empty, tokens_intercalate solid]
    exact (and_iff_right empty).symm

-- The words decide what position is read, if any.
theorem ofArguments_words (solid : ∀ word ∈ words, IsWord word) :
    let arguments := Arguments.ofGroups
      (Group.split (Command.position.keywords.contains ·) words).2
    (ofArguments arguments = .error .positionBase ∧ ¬ ("fen" ∈ words ↔ "startpos" ∉ words)) ∨
      ∃ position given, ofArguments arguments = .ok position ∧
        Stated words given position.moves ∧ position.fen = baseText given := by
  intro arguments
  have contains {keyword : String} (keyed : keyword ∈ Command.position.keywords) :
      arguments.contains keyword ↔ keyword ∈ words :=
    (Invocation.contains_split_groups words keyword).trans (and_iff_right keyed)
  have same : arguments.contains "fen" = arguments.contains "startpos" ↔
      ¬ ("fen" ∈ words ↔ "startpos" ∉ words) := by
    rw [Bool.eq_iff_iff, contains (by decide), contains (by decide), not_iff, not_iff_not]
  unfold ofArguments
  by_cases single : "fen" ∈ words ↔ "startpos" ∉ words
  · rw [if_neg (not_not_intro single ∘ same.1)]
    obtain ⟨given, fen, (first : arguments.value "fen" = _)⟩ :=
      value_gives words "fen" (by decide)
    obtain ⟨texts, moves, (second : arguments.value "moves" = _)⟩ :=
      value_gives words "moves" (by decide)
    refine .inr ⟨_, given, rfl, ⟨single, fen, ?_⟩, ?_⟩
    · rw [second, tokens_intercalate fun word member => solid word (moves.subset member)]
      exact moves
    · have empty := intercalate_eq_empty_iff fun word member => solid word (fen.subset member)
      unfold baseText Position.fen
      simp only [first, empty]
      split <;> rfl
  · exact .inl ⟨if_pos (same.2 single), single⟩

end

/-! ### What becomes of a line that states a position -/

def verdict (given texts : List String) : Except LineError Outcome :=
  ((Idle.readPosition (baseText given) texts).map fun _ => .handled).mapError .engine

section
variable {given texts : List String} (solid : ∀ word ∈ given, IsWord word)
include solid

theorem verdict_short (short : Short given) :
    verdict given texts = .error (.engine (.invalidFen (" ".intercalate given))) := by
  unfold verdict Idle.readPosition
  rw [if_pos ((length_tokens_baseText solid).2 short), baseText, if_neg short.1]
  rfl

variable (long : ¬ Short given)
include long

theorem verdict_long :
    verdict given texts = ((Idle.readMoves texts).map fun _ => .handled).mapError .engine := by
  unfold verdict Idle.readPosition
  rw [if_neg (long ∘ (length_tokens_baseText solid).1)]

theorem verdict_right (right : ∀ text ∈ texts, Move.IsText text) :
    verdict given texts = .ok .handled := by
  obtain ⟨moves, read⟩ := Idle.exists_readMoves_iff.2 right
  rw [verdict_long solid long, read]
  rfl

theorem verdict_wrong {front back : List String} {text : String}
    (right : ∀ other ∈ front, Move.IsText other) (wrong : ¬ Move.IsText text) :
    verdict given (front ++ text :: back) = .error (.engine (.invalidMove text)) := by
  rw [verdict_long solid long, Idle.readMoves_of_not_isText right wrong]
  rfl

omit long in
theorem verdict_eq_error_iff :
    (∃ error, verdict given texts = .error error) ↔
      Short given ∨ ∃ text ∈ texts, ¬ Move.IsText text := by
  by_cases short : Short given
  · exact iff_of_true ⟨_, verdict_short solid short⟩ (.inl short)
  · rw [or_iff_right short]
    constructor
    · rintro ⟨error, failed⟩
      by_contra none
      have right : ∀ text ∈ texts, Move.IsText text := by simpa using none
      cases failed.symm.trans (verdict_right solid short right)
    · rintro ⟨text, member, wrong⟩
      cases read : Idle.readMoves texts with
      | ok moves => exact absurd (Idle.exists_readMoves_iff.1 ⟨moves, read⟩ text member) wrong
      | error refusal =>
        rw [verdict_long solid short, read]
        exact ⟨_, rfl⟩

end

end Position

namespace Request

variable {line : String} {words : List String}

theorem isWord_behind {name : String} (first : tokens line = name :: words) :
    ∀ word ∈ words, IsWord word := by
  intro word member
  exact isWord_of_mem_tokens (first ▸ List.mem_cons_of_mem name member)

theorem ofLine_stated (first : tokens line = Command.position.name :: words)
    (keyed : ∀ word ∈ words.head?, word ∈ Command.position.keywords)
    (single : "fen" ∈ words ↔ "startpos" ∉ words) :
    ∃ position given, ofLine line = .ok (some (.position position)) ∧
      Position.Stated words given position.moves ∧ position.fen = Position.baseText given := by
  have invoked := Invocation.ofLine_groups (by decide) first keyed
  rcases Position.ofArguments_words (isWord_behind first) with
    ⟨-, several⟩ | ⟨position, given, read, stated, fen⟩
  · exact absurd single several
  · exact ⟨position, given,
      ofLine_of_ofInvocation invoked (congrArg (Except.map Request.position) read), stated, fen⟩

theorem stated_of_ofLine {position : Position}
    (read : ofLine line = .ok (some (.position position))) :
    ∃ words given, tokens line = Command.position.name :: words ∧
      Position.Stated words given position.moves ∧ position.fen = Position.baseText given := by
  obtain ⟨invocation, invoked, made⟩ := ofLine_eq_some read
  obtain ⟨words, first, keyed⟩ := Invocation.ofLine_first_word invoked
  have command : Command.position = invocation.command := command_of_ofInvocation made
  rw [← command] at first keyed
  have grouped := Invocation.ofLine_groups (by decide) first (keyed (by decide))
  have found := position_of_ofInvocation made
  rw [Option.some.inj (Except.ok.inj (invoked.symm.trans grouped))] at found
  rcases Position.ofArguments_words (isWord_behind first) with
    ⟨failed, -⟩ | ⟨other, given, same, stated, fen⟩
  · cases found.symm.trans failed
  · cases found.symm.trans same
    exact ⟨words, given, first, stated, fen⟩

end Request

/-! ### The position of the engine -/

namespace Entry

variable {State : Type} (entry : Entry State)

/-- The line has set up a position, with these words behind the command. -/
def Places (words : List String) : Prop :=
  entry.step.outcome = .ok .handled ∧ tokens entry.line = Command.position.name :: words

def Resets : Prop := entry.CarriesOut .position ∨ entry.CarriesOut .newGame

instance (command : Command) : Decidable (entry.CarriesOut command) :=
  inferInstanceAs (Decidable (_ ∧ _))

instance : Decidable entry.Resets := inferInstanceAs (Decidable (_ ∨ _))

theorem Places.resets {entry : Entry State} {words : List String} (places : entry.Places words) :
    entry.Resets :=
  .inl ⟨places.1, by rw [places.2]; rfl⟩

end Entry

namespace Idle

/-- The engine has the position that is stated by words behind `position`. -/
def Stands {Responder : Type} (idle : Idle Responder) (words : List String) : Prop :=
  ∃ given texts, Position.Stated words given texts ∧ idle.fen = Position.baseText given ∧
    texts.map Move.ofText? = idle.moves.map some

theorem position_react {Responder : Type} (idle : Idle Responder)
    {input : Engine.Input Responder} (still : input ≠ .order .newGame)
    (unplaced : ∀ fen texts, input ≠ .order (.setPosition fen texts)) :
    (engine.react idle input).state.fen = idle.fen ∧
      (engine.react idle input).state.moves = idle.moves := by
  have step := reacts idle input
  generalize engine.react idle input = effect at step
  cases step with
  | renewed => exact absurd rfl still
  | placed | misplaced => exact absurd rfl (unplaced _ _)
  | ready | held | answered | refused | released | registered | unregistered => exact ⟨rfl, rfl⟩

end Idle

namespace Session

section
variable (session : Session (Idle Unit)) (position : Position)

theorem carryOut_placed {moves : List Move}
    (read : Idle.readPosition position.fen position.moves = .ok moves) :
    (session.carryOut Idle.engine (.position position)).outcome = .ok .handled ∧
      (session.carryOut Idle.engine (.position position)).session.engine =
        { session.engine with fen := position.fen, moves } := by
  simp only [carryOut, Session.order, Idle.engine, Idle.obey, read, and_self]

theorem carryOut_misplaced {refusal : Engine.Refusal}
    (read : Idle.readPosition position.fen position.moves = .error refusal) :
    (session.carryOut Idle.engine (.position position)).outcome = .error (.engine refusal) := by
  simp only [carryOut, Session.order, Idle.engine, Idle.obey, read]

end

-- A request that is carried out and is not for a position or a new game.
theorem carryOut_still (session : Session (Idle Unit)) {request : Request}
    (still : request.command ≠ .newGame) (unplaced : request.command ≠ .position) :
    (session.carryOut Idle.engine request).session.engine.fen = session.engine.fen ∧
      (session.carryOut Idle.engine request).session.engine.moves = session.engine.moves := by
  rw [carryOut_engine]
  cases request with
  | newGame => exact absurd rfl still
  | position => exact absurd rfl unplaced
  | uci | setOption | quit | xyzzy => exact ⟨rfl, rfl⟩
  | isReady | go | stop | ponderHit => exact Idle.position_react _ (by simp) (by simp)

section
variable {session : Session (Idle Unit)} {line : String}

theorem handle_placed
    (placed : Entry.CarriesOut ⟨line, session.handle Idle.engine line⟩ .position) :
    ∃ words, Entry.Places ⟨line, session.handle Idle.engine line⟩ words ∧
      (session.handle Idle.engine line).session.engine.Stands words := by
  obtain ⟨request, read⟩ := request_of_handled placed.1
  obtain ⟨handled, command⟩ := (carriesOut_iff read).1 placed
  obtain ⟨next, outcome⟩ := handle_request Idle.engine session read
  cases request with
  | position position =>
    obtain ⟨words, given, said, stated, fen⟩ := Request.stated_of_ofLine read
    refine ⟨words, ⟨handled, said⟩, given, position.moves, stated, ?_⟩
    cases found : Idle.readPosition position.fen position.moves with
    | error refusal =>
      cases (handled.symm.trans outcome).trans (carryOut_misplaced session position found)
    | ok moves =>
      rw [next, (carryOut_placed session position found).2]
      exact ⟨fen, (Idle.readPosition_eq_ok_iff.1 found).2⟩
  | uci | isReady | setOption | newGame | go | stop | ponderHit | quit | xyzzy => cases command

theorem handle_renewed
    (renewed : Entry.CarriesOut ⟨line, session.handle Idle.engine line⟩ .newGame) :
    (session.handle Idle.engine line).session.engine.fen = startFen ∧
      (session.handle Idle.engine line).session.engine.moves = [] := by
  obtain ⟨request, read⟩ := request_of_handled renewed.1
  obtain ⟨-, command⟩ := (carriesOut_iff read).1 renewed
  rw [(handle_request Idle.engine session read).1]
  cases request with
  | newGame => exact ⟨rfl, rfl⟩
  | uci | isReady | setOption | position | go | stop | ponderHit | quit | xyzzy => cases command

theorem handle_still (still : ¬ Entry.Resets ⟨line, session.handle Idle.engine line⟩) :
    (session.handle Idle.engine line).session.engine.fen = session.engine.fen ∧
      (session.handle Idle.engine line).session.engine.moves = session.engine.moves := by
  by_cases handled : (session.handle Idle.engine line).outcome = .ok .handled
  · obtain ⟨request, read⟩ := request_of_handled handled
    have other (command : Command) (same : request.command = command) :
        Entry.CarriesOut ⟨line, session.handle Idle.engine line⟩ command :=
      (carriesOut_iff read).2 ⟨handled, same⟩
    rw [(handle_request Idle.engine session read).1]
    exact carryOut_still session (fun renewed => still (.inr (other .newGame renewed)))
      fun placed => still (.inl (other .position placed))
  · rw [handle_unhandled handled]
    exact ⟨rfl, rfl⟩

variable (session) in
theorem handle_stated {words : List String} (first : tokens line = Command.position.name :: words)
    (keyed : ∀ word ∈ words.head?, word ∈ Command.position.keywords)
    (single : "fen" ∈ words ↔ "startpos" ∉ words) :
    ∃ given texts, Position.Stated words given texts ∧
      (session.handle Idle.engine line).outcome = Position.verdict given texts := by
  obtain ⟨position, given, read, stated, fen⟩ := Request.ofLine_stated first keyed single
  refine ⟨given, position.moves, stated, ?_⟩
  rw [(handle_request Idle.engine session read).2, Position.verdict, ← fen]
  cases found : Idle.readPosition position.fen position.moves with
  | ok moves => exact (carryOut_placed session position found).1
  | error refusal => exact carryOut_misplaced session position found

end

-- Along the lines: one that resets the position decides it, and any other leaves it as it was.
theorem stands_behind (session : Session (Idle Unit))
    (fresh : session.engine.fen = startFen ∧ session.engine.moves = []) (lines : List String) :
    let entries := session.entries Idle.engine lines
    let idle := (session.behind Idle.engine lines).engine
    (∀ words, Latest (·.Places words) Entry.Resets entries → idle.Stands words) ∧
      ((∀ words, ¬ Latest (·.Places words) Entry.Resets entries) →
        idle.fen = startFen ∧ idle.moves = []) := by
  induction lines using List.reverseRecOn with
  | nil => exact ⟨fun words latest => absurd latest not_latest_nil, fun _ => fresh⟩
  | append_singleton lines line ih =>
    simp only [behind_concat, entries_concat, latest_concat]
    by_cases resets :
        Entry.Resets ⟨line, (session.behind Idle.engine lines).handle Idle.engine line⟩
    · rcases resets with placed | renewed
      · obtain ⟨words, places, stands⟩ := handle_placed placed
        refine ⟨fun others latest => ?_, fun none => absurd (.inl places) (none words)⟩
        rcases latest with again | ⟨quiet, -⟩
        · cases places.2.symm.trans again.2
          exact stands
        · exact absurd (.inl placed) quiet
      · refine ⟨fun words latest => ?_, fun _ => handle_renewed renewed⟩
        rcases latest with places | ⟨quiet, -⟩
        · have heads := renewed.2
          rw [places.2, List.head?_cons] at heads
          exact absurd heads (by decide)
        · exact absurd (.inr renewed) quiet
    · obtain ⟨fen, moves⟩ := handle_still resets
      unfold Idle.Stands
      rw [fen, moves]
      refine ⟨fun words latest => ?_, fun none => ?_⟩
      · rcases latest with places | ⟨-, before⟩
        · exact absurd places.resets resets
        · exact ih.1 words before
      · exact ih.2 fun words before => none words (.inr ⟨resets, before⟩)

/-- The position is the one that was stated last since the last new game, and nothing else changes
it. It always has its fields, and its moves stay on the board and are no castling. A line that can
be read is refused for a base position that is too short, or else for its first text that is no
move. -/
theorem position_stated_last (settings : Settings) (sink : Sink) (lines : List String) :
    let session := (start Idle.engine ⟨{}, settings, sink⟩).1
    let entries := session.entries Idle.engine lines
    let now := session.behind Idle.engine lines
    (∀ words, Latest (·.Places words) Entry.Resets entries →
      ∃ given texts, Position.Stated words given texts ∧
        now.engine.fen = Position.baseText given ∧
        texts.map Move.ofText? = now.engine.moves.map some ∧
        ∀ chess960, now.engine.moves.map (·.text chess960) =
          texts.map fun text => if text = "a1a1" then "0000" else text) ∧
    ((∀ words, ¬ Latest (·.Places words) Entry.Resets entries) →
      now.engine.fen = startFen ∧ now.engine.moves = []) ∧
    (∀ line, let step := now.handle Idle.engine line
      ¬ Entry.Resets ⟨line, step⟩ →
        step.session.engine.fen = now.engine.fen ∧ step.session.engine.moves = now.engine.moves) ∧
    (4 ≤ (tokens now.engine.fen).length ∧
      ∀ move ∈ now.engine.moves, move.OnBoard ∧ move.isCastling = false) ∧
    ∀ line words, tokens line = Command.position.name :: words →
      (∀ word ∈ words.head?, word ∈ Command.position.keywords) →
      ("fen" ∈ words ↔ "startpos" ∉ words) →
        let outcome := (now.handle Idle.engine line).outcome
        ∃ given texts, Position.Stated words given texts ∧
          ((∃ error, outcome = .error error) ↔
            Position.Short given ∨ ∃ text ∈ texts, ¬ Move.IsText text) ∧
          (Position.Short given →
            outcome = .error (.engine (.invalidFen (" ".intercalate given)))) ∧
          (¬ Position.Short given → ∀ front text back, texts = front ++ text :: back →
            (∀ other ∈ front, Move.IsText other) → ¬ Move.IsText text →
              outcome = .error (.engine (.invalidMove text))) ∧
          (¬ Position.Short given → (∀ text ∈ texts, Move.IsText text) →
            outcome = .ok .handled) := by
  intro session entries now
  obtain ⟨stands, fresh⟩ := stands_behind session ⟨rfl, rfl⟩ lines
  have sound : now.engine.Sound := sound_behind (Idle.sound_fresh.react (.register ())) lines
  refine ⟨fun words latest => ?_, fresh, fun line => handle_still,
    ⟨sound.fields, fun move member => ?_⟩, fun line words first keyed single => ?_⟩
  · obtain ⟨given, texts, stated, fen, moves⟩ := stands words latest
    exact ⟨given, texts, stated, fen, moves, Move.map_text_of_ofText? moves⟩
  · obtain ⟨text, read⟩ := sound.moves move member
    exact ⟨Move.onBoard_of_ofText? read, Move.isCastling_of_ofText? read⟩
  · obtain ⟨given, texts, stated, outcome⟩ := handle_stated now first keyed single
    have solid : ∀ word ∈ given, IsWord word := fun word member =>
      Request.isWord_behind first word (stated.fen.subset member)
    refine ⟨given, texts, stated, ?_⟩
    rw [outcome]
    refine ⟨Position.verdict_eq_error_iff solid, Position.verdict_short solid, ?_,
      Position.verdict_right solid⟩
    rintro long front text back rfl
    exact Position.verdict_wrong solid long

theorem null_move_is_written_in_zeros :
    let session := (start Idle.engine ⟨{}, {}, .working⟩).1
    let lines := ["position startpos", "ucinewgame", "position fen 8/8 w - - moves a1a1 e7e8q",
      "go infinite", "position startpos moves e2e9"]
    let now := session.behind Idle.engine lines
    now.engine.fen = "8/8 w - -" ∧
    now.engine.moves.map (·.text true) = ["0000", "e7e8q"] ∧
    (now.handle Idle.engine "position moves e2e4 e2e9 fen 8/8 w").outcome =
      .error (.engine (.invalidFen "8/8 w")) := by
  intro session lines now
  obtain ⟨placed, -, -, -, judged⟩ := position_stated_last {} .working lines
  have latest : Latest (·.Places ["fen", "8/8", "w", "-", "-", "moves", "a1a1", "e7e8q"])
      Entry.Resets (session.entries Idle.engine lines) :=
    ⟨_, _, _, (List.take_append_drop 2 _).symm, ⟨rfl, by decide⟩, by decide⟩
  obtain ⟨given, texts, stated, fen, -, written⟩ := placed _ latest
  have fields : given = ["8/8", "w", "-", "-"] :=
    stated.fen.unique (by decide) (.inl ⟨[], ["moves", "a1a1", "e7e8q"], by decide⟩)
  have tokens : texts = ["a1a1", "e7e8q"] :=
    stated.moves.unique (by decide) (.inl ⟨["fen", "8/8", "w", "-", "-"], [], by decide⟩)
  obtain ⟨few, _, again, -, short, -⟩ := judged "position moves e2e4 e2e9 fen 8/8 w"
    ["moves", "e2e4", "e2e9", "fen", "8/8", "w"] (by decide) (by decide) (by decide)
  have two : few = ["8/8", "w"] :=
    again.fen.unique (by decide) (.inl ⟨["moves", "e2e4", "e2e9"], [], by decide⟩)
  subst fields tokens two
  exact ⟨fen, written true, short (by decide)⟩

end Session

end UciProtocol
