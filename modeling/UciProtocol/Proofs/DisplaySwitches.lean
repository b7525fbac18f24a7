import UciProtocol.Proofs.Histories
import UciProtocol.Proofs.ReportFigures

/-! What the lines of reports show of an assignment.

Three switches say how reports are shown. An assignment shows in the next line only if it is
accepted, holds everywhere and is one to a switch, and then in the part of the line that belongs to
the switch: the castling moves, the group of the chances, or the group of the moves left.
-/

set_option autoImplicit false

namespace UciProtocol

/-! ### Assignments and switches -/

namespace Display

inductive Switch where
  | chess960
  | wdl
  | movesLeft
  deriving DecidableEq, Repr

namespace Switch

def name : Switch → String
  | chess960 => "UCI_Chess960"
  | wdl => "UCI_ShowWDL"
  | movesLeft => "UCI_ShowMovesLeft"

def key : Switch → String
  | chess960 => "uci_chess960"
  | wdl => "uci_showwdl"
  | movesLeft => "uci_showmovesleft"

theorem key_name (switch : Switch) : Setting.key switch.name = switch.key := by
  cases switch <;> decide

theorem key_injective {first second : Switch} (same : first.key = second.key) :
    first = second := by
  cases first <;> cases second <;> first | rfl | exact absurd same (by decide)

end Switch

def turn (display : Display) (on : Bool) : Switch → Display
  | .chess960 => { display with chess960 := on }
  | .wdl => { display with showWdl := on }
  | .movesLeft => { display with showMovesLeft := on }

def isOn (display : Display) : Switch → Bool
  | .chess960 => display.chess960
  | .wdl => display.showWdl
  | .movesLeft => display.showMovesLeft

theorem isOn_turn (display : Display) (on : Bool) (switch other : Switch) :
    (display.turn on switch).isOn other = if other = switch then on else display.isOn other := by
  cases switch <;> cases other <;> rfl

theorem turn_isOn (display : Display) (switch : Switch) :
    display.turn (display.isOn switch) switch = display := by
  cases switch <;> rfl

theorem chess960_turn (display : Display) {on : Bool} {switch : Switch}
    (other : switch ≠ .chess960) : (display.turn on switch).chess960 = display.chess960 := by
  cases switch with
  | chess960 => exact absurd rfl other
  | wdl | movesLeft => rfl

theorem eq_of_isOn {first second : Display}
    (same : ∀ switch, first.isOn switch = second.isOn switch) : first = second := by
  obtain ⟨_, _, _⟩ := first
  obtain ⟨_, _, _⟩ := second
  simp only [mk.injEq]
  exact ⟨same .chess960, same .wdl, same .movesLeft⟩

end Display

open Display

namespace Settings

variable {settings : Settings} {assignment : Assignment}

/-- An assignment in a context, or to another setting, leaves what holds everywhere. -/
theorem get?_set_apart {name : String}
    (apart : assignment.context ≠ "" ∨ Setting.key assignment.name ≠ Setting.key name) :
    (settings.perform (.set assignment)).get? name = settings.get? name := by
  have elsewhere : ¬ (Setting.key assignment.name = Setting.key name ∧ assignment.context = "") :=
    fun both => apart.elim (· both.2) (· both.1)
  rw [get?_eq_held?, get?_eq_held?, held?_set, if_neg elsewhere, Option.none_or]

theorem get?_set {change : Change} {name : String}
    (accepted : settings.change assignment = .ok change) (everywhere : assignment.context = "")
    (named : Setting.key assignment.name = Setting.key name) :
    (settings.perform (.set assignment)).get? name = some change.value := by
  obtain ⟨setting, value, found, reads, rfl⟩ := change_eq_ok_iff.1 accepted
  rw [get?_eq_held?, held?_set, if_pos ⟨named, everywhere⟩, ← named, found, Option.bind_some, reads]
  rfl

theorem isOn_display (settings : Settings) (switch : Switch) :
    settings.display.isOn switch = decide (settings.get? switch.name = some (.bool true)) := by
  cases switch <;> rfl

/-- An assignment that is refused, is one in a context or is not one to a switch leaves them all. -/
theorem display_set_apart
    (apart : (∃ error, settings.set assignment = .error error) ∨ assignment.context ≠ "" ∨
      ∀ switch : Switch, Setting.key assignment.name ≠ switch.key) :
    (settings.perform (.set assignment)).display = settings.display := by
  rcases apart with ⟨error, refused⟩ | apart
  · rw [perform_of_error refused]
  · refine eq_of_isOn fun switch => ?_
    rw [isOn_display, isOn_display, get?_set_apart (apart.imp_right fun others => ?_)]
    rw [switch.key_name]
    exact others switch

/-- An accepted one to a switch turns it, and leaves the others. -/
theorem display_set {change : Change} {switch : Switch}
    (accepted : settings.change assignment = .ok change) (everywhere : assignment.context = "")
    (named : Setting.key assignment.name = switch.key) :
    (settings.perform (.set assignment)).display =
      settings.display.turn (change.value = .bool true) switch := by
  refine eq_of_isOn fun other => ?_
  rw [isOn_display, isOn_turn]
  by_cases same : other = switch
  · rw [same, if_pos rfl, get?_set accepted everywhere (named.trans switch.key_name.symm)]
    simp only [Option.some.injEq]
  · have different : Setting.key assignment.name ≠ Setting.key other.name := by
      rw [named, other.key_name]
      exact fun keys => same (Switch.key_injective keys).symm
    rw [if_neg same, isOn_display, get?_set_apart (.inr different)]

end Settings

/-! ### Castling moves -/

namespace Report

/-- A piece of a line: a word that is the same in either notation, or a castling move. -/
inductive Token where
  | word (text : String)
  | castling (king rook : Square)
  deriving DecidableEq, Repr

namespace Token

def text (chess960 : Bool) : Token → String
  | word text => text
  | castling king rook => (Move.castling king rook).text chess960

def line (chess960 : Bool) (row : List Token) : String := " ".intercalate (row.map (text chess960))

def move? : Token → Option Move
  | word _ => none
  | castling king rook => some (.castling king rook)

def ofMove : Move → Token
  | .plain origin target promotion => word ((Move.plain origin target promotion).text false)
  | .castling king rook => castling king rook

theorem text_ofMove (chess960 : Bool) (move : Move) :
    text chess960 (ofMove move) = move.text chess960 := by
  cases move with
  | plain origin target promotion => rfl
  | castling king rook => rfl

theorem move?_ofMove (move : Move) :
    (ofMove move).move? = if move.isCastling then some move else none := by
  cases move with
  | plain origin target promotion => rfl
  | castling king rook => rfl

def ofMoves (keyword : String) (moves : List Move) : List Token :=
  if moves = [] then [] else word keyword :: moves.map ofMove

theorem map_text_words (chess960 : Bool) (words : List String) :
    (words.map word).map (text chess960) = words := by
  rw [List.map_map]
  exact List.map_id _

theorem map_text_ofMoves (chess960 : Bool) (keyword : String) (moves : List Move) :
    (ofMoves keyword moves).map (text chess960) =
      if moves = [] then [] else keyword :: moves.map (·.text chess960) := by
  have each : (moves.map ofMove).map (text chess960) = moves.map (·.text chess960) := by
    rw [List.map_map]
    exact List.map_congr_left fun move _ => text_ofMove chess960 move
  unfold ofMoves
  split
  · rfl
  · rw [List.map_cons, each, text]

theorem moves_words (words : List String) : (words.map word).filterMap move? = [] := by
  simp [List.filterMap_map, move?]

theorem moves_ofMoves (keyword : String) (moves : List Move) :
    (ofMoves keyword moves).filterMap move? = moves.filter (·.isCastling) := by
  have each : (moves.map ofMove).filterMap move? = moves.filter (·.isCastling) := by
    induction moves with
    | nil => rfl
    | cons move moves ih =>
      rw [List.map_cons, List.filterMap_cons, move?_ofMove, List.filter_cons, ih]
      cases move.isCastling <;> rfl
  unfold ofMoves
  split
  next none => rw [none]; rfl
  next => exact each

-- Without castling moves a row is the same line in either notation.
theorem line_of_plain {row : List Token} (plain : row.filterMap move? = [])
    (chess960 other : Bool) : line chess960 row = line other row := by
  unfold line
  refine congrArg _ (List.map_congr_left fun token member => ?_)
  cases token with
  | word text => rfl
  | castling king rook => cases List.filterMap_eq_nil_iff.1 plain _ member

end Token

end Report

open Report

namespace Progress

def tokens (display : Display) (progress : Progress) : List Token :=
  ("info" :: (Figure.groups (progress.figures display)).flatMap Group.tokens).map .word ++
    (Token.ofMoves "pv" progress.variation ++ progress.commentWords.map .word)

variable (display : Display) (progress : Progress)

theorem line_tokens (chess960 : Bool) :
    progress.line { display with chess960 } = Token.line chess960 (progress.tokens display) := by
  rw [line_figures, Token.line, tokens, List.map_append, List.map_append,
    Token.map_text_words, Token.map_text_words, Token.map_text_ofMoves]
  rfl

theorem moves_tokens :
    (progress.tokens display).filterMap Token.move? =
      progress.variation.filter (·.isCastling) := by
  rw [tokens, List.filterMap_append, List.filterMap_append, Token.moves_words, Token.moves_words,
    Token.moves_ofMoves, List.nil_append, List.append_nil]

end Progress

namespace BestMove

def tokens (display : Display) (best : BestMove) : List Token :=
  Token.ofMoves "bestmove" [best.move] ++ (Token.ofMoves "ponder" best.ponder.toList ++
    ((Figure.groups (best.figures display).tail).flatMap Group.tokens).map .word)

variable (display : Display) (best : BestMove)

theorem line_tokens (chess960 : Bool) :
    best.line { display with chess960 } = Token.line chess960 (best.tokens display) := by
  have groups : best.groups { display with chess960 } =
      Group.ofOption "ponder" (fun move => [move.text chess960]) best.ponder ++
        Figure.groups (best.figures display).tail := by
    rw [groups_figures, figures, Figure.groups_cons, ← Group.ofOption_map]
    rfl
  have ponder : (Group.ofOption "ponder" (fun move => [Move.text chess960 move])
      best.ponder).flatMap Group.tokens =
        (Token.ofMoves "ponder" best.ponder.toList).map (Token.text chess960) := by
    rw [Token.map_text_ofMoves]
    cases best.ponder <;> rfl
  have chosen : (Token.ofMoves "bestmove" [best.move]).map (Token.text chess960) =
      ["bestmove", best.move.text chess960] := Token.map_text_ofMoves ..
  rw [line, Group.line, groups, List.flatMap_append, ponder, Token.line, tokens, List.map_append,
    List.map_append, Token.map_text_words, chosen]

theorem moves_tokens :
    (best.tokens display).filterMap Token.move? = best.moves.filter (·.isCastling) := by
  rw [tokens, List.filterMap_append, List.filterMap_append, Token.moves_words, Token.moves_ofMoves,
    Token.moves_ofMoves, List.append_nil, ← List.filter_append]
  rfl

end BestMove

namespace Report

def rows (display : Display) : Report → List (List Token)
  | progress variations => variations.map (·.tokens display)
  | best result => [result.tokens display]

variable (display : Display) (report : Report)

theorem lines_turn (on : Bool) :
    report.lines (display.turn on .chess960) = (report.rows display).map (Token.line on) := by
  cases report with
  | progress variations =>
    rw [lines, rows, List.map_map]
    exact List.map_congr_left fun progress _ => progress.line_tokens display on
  | best result => exact congrArg (fun line => [line]) (result.line_tokens display on)

theorem lines_rows :
    report.lines display = (report.rows display).map (Token.line display.chess960) :=
  report.lines_turn display display.chess960

theorem moves_rows :
    (report.rows display).flatten.filterMap Token.move? =
      report.moves.filter (·.isCastling) := by
  cases report with
  | progress variations =>
    rw [rows, moves, ← List.flatMap_def, List.filterMap_flatMap, List.filter_flatMap]
    exact congrArg (variations.flatMap ·) (funext fun progress => progress.moves_tokens display)
  | best result => rw [rows, moves, List.flatten_singleton, result.moves_tokens]

-- A castling move in a row is one of the report.
theorem lines_turn_of_plain (plain : ∀ move ∈ report.moves, move.isCastling = false) (on : Bool) :
    report.lines (display.turn on .chess960) = report.lines display := by
  have none : (report.rows display).flatten.filterMap Token.move? = [] := by
    rw [moves_rows, List.filter_eq_nil_iff]
    exact fun move member => Bool.not_eq_true _ ▸ plain move member
  rw [lines_turn, lines_rows]
  refine List.map_congr_left fun row member => Token.line_of_plain ?_ _ _
  rw [List.filterMap_eq_nil_iff] at none ⊢
  exact fun token inside => none token (List.mem_flatten.2 ⟨row, member, inside⟩)

end Report

/-! ### Groups that are shown or left out -/

/-- Of two lines of progress each shows a group or leaves it out, and they are the same but for it.
The groups before it have keywords of `ahead`, those behind it of `behind`, in this order. -/
def Group.Switched (own : List Group) (ahead behind : List String) (was now : Bool)
    (line next : String) : Prop :=
  ∃ front back : List Group,
    (front.map (·.keyword)).Sublist ahead ∧ (back.map (·.keyword)).Sublist behind ∧
    line = Group.line ["info"] (front ++ (if was then own else []) ++ back) ∧
    next = Group.line ["info"] (front ++ (if now then own else []) ++ back)

theorem Figure.groups_append (front back : List Figure) :
    groups (front ++ back) = groups front ++ groups back :=
  List.filterMap_append

theorem Figure.keywords_groups (figures : List Figure) :
    ((groups figures).map (·.keyword)).Sublist (figures.map (·.keyword)) := by
  induction figures with
  | nil => exact .slnil
  | cons figure figures ih =>
    obtain ⟨keyword, words⟩ := figure
    rw [groups_cons]
    cases words with
    | none => exact ih.cons _
    | some words => exact ih.cons_cons _

namespace Progress

variable (progress : Progress)

def tailGroups (chess960 : Bool) : List Group :=
  Group.ofList "pv" (·.text chess960) progress.variation ++
    if progress.comment = "" then [] else [⟨"string", [progress.comment]⟩]

theorem keywords_tailGroups (chess960 : Bool) :
    ((progress.tailGroups chess960).map (·.keyword)).Sublist ["pv", "string"] := by
  have comment : ((if progress.comment = "" then [] else
      [(⟨"string", [progress.comment]⟩ : Group)]).map (·.keyword)).Sublist ["string"] := by
    split
    · exact List.nil_sublist _
    · exact .refl _
  rw [tailGroups, List.map_append]
  cases progress.variation with
  | nil => exact comment.cons _
  | cons move moves => exact comment.cons_cons _

variable (display : Display)

/-- The figures on the sides of one that is switched stay, as does all that is behind them. -/
theorem switched (switch : Switch) (other : switch ≠ .chess960) (front back : List Figure)
    {keyword : String} {words : Option (List String)}
    (figures : ∀ shown, progress.figures (display.turn shown switch) =
      front ++ ⟨keyword, if shown then words else none⟩ :: back) (on : Bool) :
    Group.Switched (Group.ofOption keyword id words) (front.map (·.keyword))
      (back.map (·.keyword) ++ ["pv", "string"]) (display.isOn switch) on
      (progress.line display) (progress.line (display.turn on switch)) := by
  have line : ∀ shown, progress.line (display.turn shown switch) =
      Group.line ["info"] (Figure.groups front ++
        (if shown then Group.ofOption keyword id words else []) ++
          (Figure.groups back ++ progress.tailGroups display.chess960)) := by
    intro shown
    have figure : Group.ofOption keyword id (if shown then words else none) =
        if shown then Group.ofOption keyword id words else [] := by
      cases shown <;> rfl
    rw [Progress.line, groups_figures, figures, chess960_turn display other,
      Figure.groups_append, Figure.groups_cons, ← tailGroups, figure]
    simp only [List.append_assoc]
  have was := line (display.isOn switch)
  rw [turn_isOn] at was
  refine ⟨_, _, Figure.keywords_groups front, ?_, was, line on⟩
  rw [List.map_append]
  exact (Figure.keywords_groups back).append (progress.keywords_tailGroups _)

theorem switched_wdl (on : Bool) :
    Group.Switched (Group.ofOption "wdl" Chances.words progress.wdl)
      ["player", "gameid", "side", "depth", "seldepth", "time", "nodes", "score"]
      ["movesleft", "hashfull", "nps", "tbhits", "multipv", "pv", "string"]
      display.showWdl on (progress.line display) (progress.line (display.turn on .wdl)) := by
  rw [Group.ofOption_map]
  exact progress.switched display .wdl nofun ((progress.figures display).take 8)
    ((progress.figures display).drop 9) (fun _ => rfl) on

theorem switched_movesLeft (on : Bool) :
    Group.Switched (Group.ofOption "movesleft" (fun n => [n.toNat.repr]) progress.movesLeft)
      ["player", "gameid", "side", "depth", "seldepth", "time", "nodes", "score", "wdl"]
      ["hashfull", "nps", "tbhits", "multipv", "pv", "string"]
      display.showMovesLeft on (progress.line display)
      (progress.line (display.turn on .movesLeft)) := by
  rw [Group.ofOption_map]
  exact progress.switched display .movesLeft nofun ((progress.figures display).take 9)
    ((progress.figures display).drop 10) (fun _ => rfl) on

end Progress

theorem BestMove.line_turn (display : Display) (best : BestMove) (on : Bool) (switch : Switch)
    (other : switch ≠ .chess960) : best.line (display.turn on switch) = best.line display := by
  rw [line, line, groups, groups, chess960_turn display other]

/-- An assignment that is refused, is one in a context or is not one to a switch leaves the lines of
all reports. One that turns a switch shows in the next line. The notation of moves shows in the
castling moves of the report alone, so not at all where it has none; the switches of the chances
and of the moves left show in the group of that name alone, which is put in or left out at its
place. -/
theorem assignment_shows_in_own_part :
    ∀ (settings : Settings) (assignment : Assignment),
      let next := settings.perform (.set assignment)
      (((∃ error, settings.set assignment = .error error) ∨ assignment.context ≠ "" ∨
          ∀ switch : Switch, Setting.key assignment.name ≠ switch.key) →
        ∀ report : Report, report.lines next.display = report.lines settings.display) ∧
      ∀ change, settings.change assignment = .ok change → assignment.context = "" →
        let on : Bool := change.value = .bool true
        (Setting.key assignment.name = Switch.chess960.key → ∀ report : Report,
          (∃ rows : List (List Token),
            rows.flatten.filterMap Token.move? = report.moves.filter (·.isCastling) ∧
            report.lines settings.display = rows.map (Token.line settings.display.chess960) ∧
            report.lines next.display = rows.map (Token.line on)) ∧
          ((∀ move ∈ report.moves, move.isCastling = false) →
            report.lines next.display = report.lines settings.display)) ∧
        (Setting.key assignment.name = Switch.wdl.key →
          (∀ best : BestMove, best.line next.display = best.line settings.display) ∧
          ∀ progress : Progress,
            Group.Switched (Group.ofOption "wdl" Chances.words progress.wdl)
              ["player", "gameid", "side", "depth", "seldepth", "time", "nodes", "score"]
              ["movesleft", "hashfull", "nps", "tbhits", "multipv", "pv", "string"]
              settings.display.showWdl on
              (progress.line settings.display) (progress.line next.display)) ∧
        (Setting.key assignment.name = Switch.movesLeft.key →
          (∀ best : BestMove, best.line next.display = best.line settings.display) ∧
          ∀ progress : Progress,
            Group.Switched
              (Group.ofOption "movesleft" (fun n => [n.toNat.repr]) progress.movesLeft)
              ["player", "gameid", "side", "depth", "seldepth", "time", "nodes", "score", "wdl"]
              ["hashfull", "nps", "tbhits", "multipv", "pv", "string"]
              settings.display.showMovesLeft on
              (progress.line settings.display) (progress.line next.display)) := by
  intro settings assignment next
  constructor
  · intro apart report
    rw [Settings.display_set_apart apart]
  intro change accepted everywhere on
  have turned : ∀ switch : Switch, Setting.key assignment.name = switch.key →
      next.display = settings.display.turn on switch :=
    fun switch named => Settings.display_set accepted everywhere named
  clear_value next on
  refine ⟨fun named report => ?_, fun named => ?_, fun named => ?_⟩
  · rw [turned .chess960 named]
    exact ⟨⟨report.rows settings.display, report.moves_rows _, report.lines_rows _,
      report.lines_turn _ on⟩, fun plain => report.lines_turn_of_plain _ plain on⟩
  · rw [turned .wdl named]
    exact ⟨fun best => best.line_turn _ on .wdl nofun, fun progress => progress.switched_wdl _ on⟩
  · rw [turned .movesLeft named]
    exact ⟨fun best => best.line_turn _ on .movesLeft nofun,
      fun progress => progress.switched_movesLeft _ on⟩

theorem switches_show_in_next_line :
    let settings := Settings.declareAll {} Settings.displaySettings
    let display (name value context : String) : Display :=
      (settings.perform (.set ⟨name, value, context⟩)).display
    let castles : Report := .best { move := .castling ⟨4, 0⟩ ⟨7, 0⟩ }
    let advances : Report := .best { move := .plain ⟨4, 1⟩ ⟨4, 3⟩ none }
    let search : Progress := { depth := some 3, wdl := some ⟨250, 500, 250⟩, movesLeft := some 40 }
    castles.lines (display "UCI_Chess960" "true" "player1") = castles.lines settings.display ∧
    advances.lines (display "uci_chess960 " "TRUE" "") = advances.lines settings.display ∧
    castles.lines settings.display = ["bestmove e1g1"] ∧
    castles.lines (display "uci_chess960 " "TRUE" "") = ["bestmove e1h1"] ∧
    Group.Switched [⟨"wdl", ["250", "500", "250"]⟩]
      ["player", "gameid", "side", "depth", "seldepth", "time", "nodes", "score"]
      ["movesleft", "hashfull", "nps", "tbhits", "multipv", "pv", "string"] true false
      (search.line settings.display) (search.line (display "UCI_ShowWDL" "0" "")) ∧
    Group.Switched [⟨"movesleft", ["40"]⟩]
      ["player", "gameid", "side", "depth", "seldepth", "time", "nodes", "score", "wdl"]
      ["hashfull", "nps", "tbhits", "multipv", "pv", "string"] false true
      (search.line settings.display) (search.line (display "UCI_ShowMovesLeft" "1" "")) := by
  intro settings display castles advances search
  have in_context := (assignment_shows_in_own_part settings
    ⟨"UCI_Chess960", "true", "player1"⟩).1 (.inr (.inl (by decide)))
  have turned960 := ((assignment_shows_in_own_part settings
    ⟨"uci_chess960 ", "TRUE", ""⟩).2 ⟨⟨"UCI_Chess960", .check false⟩, .bool true, ""⟩
      (by decide +kernel) rfl).1 (by decide +kernel)
  have chances := ((assignment_shows_in_own_part settings
    ⟨"UCI_ShowWDL", "0", ""⟩).2 ⟨⟨"UCI_ShowWDL", .check true⟩, .bool false, ""⟩
      (by decide +kernel) rfl).2.1 (by decide +kernel)
  have moves := ((assignment_shows_in_own_part settings
    ⟨"UCI_ShowMovesLeft", "1", ""⟩).2 ⟨⟨"UCI_ShowMovesLeft", .check false⟩, .bool true, ""⟩
      (by decide +kernel) rfl).2.2 (by decide +kernel)
  exact ⟨in_context castles, (turned960 advances).2 (by decide), by decide +kernel,
    by decide +kernel, chances.2 search, moves.2 search⟩

end UciProtocol
