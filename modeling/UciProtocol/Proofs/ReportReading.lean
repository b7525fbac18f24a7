import UciProtocol.Proofs.ReportLines
import UciProtocol.Proofs.WrittenRequests

/-! Reports that are read back from their lines.

Every figure of a report begins with a keyword of its own and has a fixed number of words, so its
end is known, and what comes next tells which figures are left out. No move is written `string`,
so the variation ends where the comment begins, and the comment is all that is behind, whatever it
looks like. What a line shows of a report is therefore all that the line depends on, and can be
read back from it.
-/

set_option autoImplicit false

namespace UciProtocol

open Text

namespace Numeral

theorem repr_injective : Function.Injective Int.repr := by
  intro a b same
  have between : ∀ value, min 0 (min a b) ≤ value → value ≤ max 0 (max a b) →
      Range.Contains ⟨min 0 (min a b), max 0 (max a b)⟩ value :=
    fun _ least greatest => ⟨least, greatest⟩
  have zero := between 0 (by omega) (by omega)
  have first := read_repr zero (between a (by omega) (by omega))
  have second := read_repr zero (between b (by omega) (by omega))
  rw [same, second] at first
  exact (Except.ok.inj first).symm

theorem nat_repr_injective : Function.Injective Nat.repr :=
  fun _ _ same => Int.ofNat.inj (repr_injective same)

theorem writeInt32_injective : Function.Injective writeInt32 :=
  fun _ _ same => Int32.toInt_inj.1 (repr_injective same)

end Numeral

/-! ### Pieces of a line -/

namespace Position

theorem pieces_append (front back : String) :
    pieces (front ++ " " ++ back) = pieces front ++ pieces back := by
  have space : " ".toList = [' '] := rfl
  simp only [pieces, String.toList_append, space, List.append_assoc, List.singleton_append]
  rw [List.splitOn, List.splitOnP_append_cons _ _ (by rfl), List.map_append]
  rfl

theorem pieces_whole {text : String} (whole : Whole text) : pieces text = [text] := by
  have apart : ' ' ∉ text.toList := fun member => (whole ' ' member).1 rfl
  rw [pieces, List.splitOn_eq_singleton apart, List.map_singleton, String.ofList_toList]

theorem pieces_row {items : List String} (nonempty : items ≠ []) :
    pieces (" ".intercalate items) = items.flatMap pieces := by
  induction items with
  | nil => exact absurd rfl nonempty
  | cons item items ih =>
    cases items with
    | nil => simp
    | cons next items =>
      rw [String.intercalate_cons_cons, pieces_append, ih (List.cons_ne_nil _ _)]
      rfl

theorem flatMap_pieces {items : List String} (whole : ∀ item ∈ items, Whole item) :
    items.flatMap pieces = items := by
  induction items with
  | nil => rfl
  | cons item items ih =>
    obtain ⟨first, rest⟩ := List.forall_mem_cons.1 whole
    rw [List.flatMap_cons, pieces_whole first, ih rest]
    rfl

end Position

/-! ### Figures -/

namespace Figure

structure Shape where
  keyword : String
  width : Nat
  deriving DecidableEq, Repr

def Fits (figure : Figure) (shape : Shape) : Prop :=
  figure.keyword = shape.keyword ∧ ∀ words ∈ figure.words, words.length = shape.width

/-- Read figures, and what is behind them. A figure whose keyword does not come next is not
given. -/
def read : List Shape → List String → List Figure × List String
  | [], words => ([], words)
  | shape :: shapes, words =>
    if words.head? = some shape.keyword then
      let (figures, rest) := read shapes (words.tail.drop shape.width)
      (⟨shape.keyword, some (words.tail.take shape.width)⟩ :: figures, rest)
    else
      let (figures, rest) := read shapes words
      (⟨shape.keyword, none⟩ :: figures, rest)

variable {figures : List Figure} {shapes : List Shape} {rest : List String}

theorem head?_groups {word : String}
    (first : word ∈ ((groups figures).flatMap Group.tokens ++ rest).head?) :
    word ∈ figures.map (·.keyword) ∨ word ∈ rest.head? := by
  induction figures with
  | nil => exact .inr first
  | cons figure figures ih =>
    obtain ⟨keyword, words⟩ := figure
    rw [groups_cons] at first
    cases words with
    | none => exact (ih first).imp_left (List.mem_cons_of_mem _)
    | some words =>
      cases first
      exact .inl List.mem_cons_self

theorem map_keyword (fit : List.Forall₂ Fits figures shapes) :
    figures.map (·.keyword) = shapes.map (·.keyword) := by
  induction fit with
  | nil => rfl
  | cons fits _ ih => rw [List.map_cons, List.map_cons, fits.1, ih]

/-- Figures are read back as they were written, if no keyword of theirs stands behind them. -/
theorem read_groups (fit : List.Forall₂ Fits figures shapes)
    (distinct : (shapes.map (·.keyword)).Nodup)
    (apart : ∀ word ∈ rest.head?, word ∉ shapes.map (·.keyword)) :
    read shapes ((groups figures).flatMap Group.tokens ++ rest) = (figures, rest) := by
  induction fit with
  | nil => rfl
  | @cons figure shape figures shapes fits fit ih =>
    obtain ⟨keyword, words⟩ := figure
    obtain ⟨rfl, width⟩ := fits
    obtain ⟨own, distinct⟩ := List.nodup_cons.1 distinct
    have later := ih distinct fun word first member =>
      apart word first (List.mem_cons_of_mem _ member)
    rw [groups_cons, read]
    cases words with
    | none =>
      have absent : ((groups figures).flatMap Group.tokens ++ rest).head? ≠ some shape.keyword := by
        intro first
        rcases head?_groups first with member | member
        · exact own (map_keyword fit ▸ member)
        · exact apart _ member List.mem_cons_self
      rw [Group.ofOption, List.nil_append, if_neg absent, later]
    | some words =>
      have size : words.length = shape.width := width words rfl
      have written : (Group.ofOption shape.keyword id (some words) ++ groups figures).flatMap
          Group.tokens ++ rest =
            shape.keyword :: (words ++ ((groups figures).flatMap Group.tokens ++ rest)) := by
        simp [Group.ofOption, Group.tokens]
      rw [written, List.head?_cons, if_pos rfl, List.tail_cons, ← size, List.drop_left,
        List.take_left, later]

/-- A figure with as many words as it takes, if it is given. -/
theorem fits_map {α : Type} {keyword : String} {width : Nat} {words : α → List String}
    (size : ∀ part, (words part).length = width) (part : Option α) :
    Fits ⟨keyword, part.map words⟩ ⟨keyword, width⟩ := by
  refine ⟨rfl, fun given found => ?_⟩
  obtain ⟨own, -, rfl⟩ := Option.map_eq_some_iff.1 found
  exact size own

theorem fits_word {α : Type} {keyword : String} (word : α → String) (part : Option α) :
    Fits ⟨keyword, part.map fun own => [word own]⟩ ⟨keyword, 1⟩ :=
  fits_map (fun own => List.length_singleton (a := word own)) part

theorem fits_shown {keyword : String} {width : Nat} {words : Option (List String)} (shown : Bool)
    (fits : Fits ⟨keyword, words⟩ ⟨keyword, width⟩) :
    Fits ⟨keyword, if shown then words else none⟩ ⟨keyword, width⟩ := by
  cases shown
  · exact ⟨rfl, by simp⟩
  · exact fits

end Figure

/-! ### Results -/

namespace BestMove

variable (display : Display)

def shapes : List Figure.Shape := [⟨"ponder", 1⟩, ⟨"player", 1⟩, ⟨"gameid", 1⟩, ⟨"side", 1⟩]

def readLine (line : String) : Option String × List Figure :=
  let words := (Position.pieces line).tail
  (words.head?, (Figure.read shapes words.tail).1)

theorem figures_fit (best : BestMove) :
    List.Forall₂ Figure.Fits (best.figures display) shapes :=
  .cons (Figure.fits_word _ _) <| .cons (Figure.fits_word _ _) <|
    .cons (Figure.fits_word _ _) <| .cons (Figure.fits_word _ _) .nil

theorem line_figures (best : BestMove) :
    best.line display = " ".intercalate ("bestmove" :: best.move.text display.chess960 ::
      (Figure.groups (best.figures display)).flatMap Group.tokens) := by
  rw [line, Group.line, groups_figures]
  rfl

theorem readLine_line {best : BestMove} (inside : ∀ move ∈ best.moves, move.OnBoard) :
    readLine (best.line display) =
      (some (best.move.text display.chess960), best.figures display) := by
  have whole : ∀ word ∈ "bestmove" :: best.move.text display.chess960 ::
      (Figure.groups (best.figures display)).flatMap Group.tokens, Whole word := by
    simp only [List.forall_mem_cons]
    exact ⟨by decide, (inside _ List.mem_cons_self).whole_text _,
      fun word => Figure.whole_of_mem_groups (best.whole_figures display inside)⟩
  have last : ∀ word ∈ ([] : List String).head?, word ∉ shapes.map (·.keyword) := by simp
  have back := Figure.read_groups (best.figures_fit display) (by decide) last
  rw [List.append_nil] at back
  rw [line_figures, readLine, Position.pieces_row (List.cons_ne_nil _ _),
    Position.flatMap_pieces whole]
  simp only [List.tail_cons, List.head?_cons, back]

end BestMove

/-! ### Progress -/

-- The word `string` has no digit.
theorem Move.text_digit (chess960 : Bool) (move : Move) :
    (move.text chess960).toList.any Char.isDigit = true := by
  have square (square : Square) : square.text.toList.any Char.isDigit = true := by
    obtain ⟨digit, rest, same, isDigit⟩ := Numeral.toDigits_eq_cons (square.rank + 1).toNat
    rw [Square.text, String.toList_ofList, same, List.any_cons, List.any_cons, isDigit,
      Bool.true_or, Bool.or_true]
  unfold Move.text
  split
  · decide
  · split <;> simp [square]

namespace Progress

variable (display : Display) (progress : Progress)

def shapes : List Figure.Shape :=
  [⟨"player", 1⟩, ⟨"gameid", 1⟩, ⟨"side", 1⟩, ⟨"depth", 1⟩, ⟨"seldepth", 1⟩, ⟨"time", 1⟩,
    ⟨"nodes", 1⟩, ⟨"score", 2⟩, ⟨"wdl", 3⟩, ⟨"movesleft", 1⟩, ⟨"hashfull", 1⟩, ⟨"nps", 1⟩,
    ⟨"tbhits", 1⟩, ⟨"multipv", 1⟩]

structure Shown where
  figures : List Figure
  variation : List String
  comment : String
  deriving DecidableEq, Repr

def shown : Shown :=
  ⟨progress.figures display, progress.variation.map (·.text display.chess960), progress.comment⟩

/-- Read what a line says. The comment begins behind the first word `string` that is in no
figure. -/
def readLine (line : String) : Shown :=
  let (figures, words) := Figure.read shapes (Position.pieces line).tail
  ⟨figures, (words.takeWhile (· ≠ "string")).tail,
    " ".intercalate (words.dropWhile (· ≠ "string")).tail⟩

theorem figures_fit : List.Forall₂ Figure.Fits (progress.figures display) shapes := by
  have score : ∀ score : Score, score.words.length = 2 := fun score => by cases score <;> rfl
  have chances : ∀ chances : Chances, chances.words.length = 3 := fun _ => rfl
  unfold figures shapes
  exact .cons (Figure.fits_word _ _) <| .cons (Figure.fits_word _ _) <|
    .cons (Figure.fits_word _ _) <| .cons (Figure.fits_word _ _) <|
    .cons (Figure.fits_word _ _) <| .cons (Figure.fits_word _ _) <|
    .cons (Figure.fits_word _ _) <| .cons (Figure.fits_map score _) <|
    .cons (Figure.fits_shown _ (Figure.fits_map chances _)) <|
    .cons (Figure.fits_shown _ (Figure.fits_word _ _)) <|
    .cons (Figure.fits_word _ _) <| .cons (Figure.fits_word _ _) <|
    .cons (Figure.fits_word _ _) <| .cons (Figure.fits_word _ _) .nil

/-- The words of a variation depend on how its moves are written. -/
theorem variationWords_shown :
    progress.variationWords display =
      if (progress.shown display).variation = [] then []
      else "pv" :: (progress.shown display).variation := by
  simp [variationWords, shown]

theorem tail_variationWords :
    (progress.variationWords display).tail = (progress.shown display).variation := by
  rw [variationWords_shown]
  split
  next none => rw [none]; rfl
  next => rfl

theorem variationWords_ne_string {word : String}
    (member : word ∈ progress.variationWords display) : word ≠ "string" := by
  rintro rfl
  unfold variationWords at member
  split at member
  · cases member
  · rcases List.mem_cons.1 member with same | move
    · exact absurd same (by decide)
    · obtain ⟨move, -, same⟩ := List.mem_map.1 move
      have digit := move.text_digit display.chess960
      rw [same] at digit
      exact absurd digit (by decide)

def commentPieces : List String :=
  if progress.comment = "" then [] else "string" :: Position.pieces progress.comment

theorem takeWhile_commentPieces :
    progress.commentPieces.takeWhile (· ≠ "string") = [] := by
  unfold commentPieces
  split
  · rfl
  · exact List.takeWhile_cons_of_neg (by decide)

theorem intercalate_commentPieces :
    " ".intercalate (progress.commentPieces.dropWhile (· ≠ "string")).tail = progress.comment := by
  unfold commentPieces
  split
  next none => rw [none]; rfl
  next =>
    rw [List.dropWhile_cons_of_neg (by decide), List.tail_cons, Position.intercalate_pieces]

section
variable {progress : Progress} (inside : ∀ move ∈ progress.variation, move.OnBoard)
include inside

theorem pieces_line :
    Position.pieces (progress.line display) =
      progress.leadWords display ++ progress.commentPieces := by
  have nonempty : progress.leadWords display ++ progress.commentWords ≠ [] := by
    simp [leadWords]
  have comment : progress.commentWords.flatMap Position.pieces = progress.commentPieces := by
    unfold commentWords commentPieces
    split
    · rfl
    · have keyword : Position.pieces "string" = ["string"] :=
        Position.pieces_whole (by decide)
      simp [keyword]
  rw [line_leadWords, Position.pieces_row nonempty, List.flatMap_append,
    Position.flatMap_pieces (whole_leadWords display inside), comment]

theorem readLine_line : readLine (progress.line display) = progress.shown display := by
  have apart : ∀ word ∈ (progress.variationWords display ++ progress.commentPieces).head?,
      word ∉ shapes.map (·.keyword) := by
    intro word first
    have keyword : word = "pv" ∨ word = "string" := by
      unfold variationWords commentPieces at first
      split at first
      · split at first
        · cases first
        · cases first
          exact .inr rfl
      · cases first
        exact .inl rfl
    rcases keyword with rfl | rfl <;> decide
  have moves : ∀ word ∈ progress.variationWords display, decide (word ≠ "string") = true :=
    fun word member => decide_eq_true (progress.variationWords_ne_string display member)
  rw [readLine, pieces_line display inside, leadWords, List.cons_append, List.tail_cons,
    List.append_assoc, Figure.read_groups (progress.figures_fit display) (by decide) apart]
  dsimp only
  rw [List.takeWhile_append_of_pos moves, List.dropWhile_append_of_pos moves,
    takeWhile_commentPieces, List.append_nil, tail_variationWords, intercalate_commentPieces]
  rfl

end

/-- A line depends on nothing but what it shows. -/
theorem line_eq_iff {a b : Progress} (first : ∀ move ∈ a.variation, move.OnBoard)
    (second : ∀ move ∈ b.variation, move.OnBoard) :
    a.line display = b.line display ↔ a.shown display = b.shown display := by
  constructor
  · intro same
    rw [← readLine_line display first, same, readLine_line display second]
  · intro same
    have figures : a.figures display = b.figures display := congrArg Shown.figures same
    have comment : a.comment = b.comment := congrArg Shown.comment same
    rw [line_figures, line_figures, figures, variationWords_shown, variationWords_shown, same,
      commentWords, commentWords, comment]

end Progress

/-! ### Agreement -/

theorem Side.name_injective : Function.Injective Side.name := by
  intro a b same
  cases a <;> cases b <;> simp_all [Side.name]

theorem Score.words_injective : Function.Injective Score.words := by
  intro a b same
  cases a <;> cases b <;>
    simp_all [Score.words, Numeral.writeInt32_injective.eq_iff]

theorem Chances.words_injective : Function.Injective Chances.words := by
  rintro ⟨win, draw, loss⟩ ⟨win', draw', loss'⟩ same
  simp only [Chances.words, List.cons.injEq, and_true, Numeral.nat_repr_injective.eq_iff,
    UInt32.toNat_inj] at same
  obtain ⟨rfl, rfl, rfl⟩ := same
  rfl

namespace Figure

variable {α : Type} {a b : Option α}

theorem map_singleton_iff (word : α → String) :
    (a.map fun part => [word part]) = (b.map fun part => [word part]) ↔
      a.map word = b.map word := by
  cases a <;> cases b <;> simp

theorem map_word_iff {word : α → String} (injective : word.Injective) :
    (a.map fun part => [word part]) = (b.map fun part => [word part]) ↔ a = b :=
  (map_singleton_iff word).trans (Option.map_injective injective).eq_iff

theorem map_number_iff {number : α → Nat} (injective : number.Injective) :
    (a.map fun part => [(number part).repr]) = (b.map fun part => [(number part).repr]) ↔ a = b :=
  map_word_iff (Numeral.nat_repr_injective.comp injective)

theorem shown_iff {β : Type} {shown : Bool} {a b : Option β} :
    (if shown then a else none) = (if shown then b else none) ↔ (shown = true → a = b) := by
  cases shown <;> simp

end Figure

structure BestMove.Agree (display : Display) (a b : BestMove) : Prop where
  move : a.move.text display.chess960 = b.move.text display.chess960
  ponder : a.ponder.map (·.text display.chess960) = b.ponder.map (·.text display.chess960)
  player : a.player = b.player
  gameId : a.gameId = b.gameId
  side : a.side = b.side

structure Progress.Agree (display : Display) (a b : Progress) : Prop where
  player : a.player = b.player
  gameId : a.gameId = b.gameId
  side : a.side = b.side
  depth : a.depth.map (max ·.toInt 1) = b.depth.map (max ·.toInt 1)
  selectiveDepth : a.selectiveDepth = b.selectiveDepth
  time : a.time = b.time
  nodes : a.nodes = b.nodes
  score : a.score = b.score
  wdl : display.showWdl = true → a.wdl = b.wdl
  movesLeft : display.showMovesLeft = true → a.movesLeft = b.movesLeft
  hashFull : a.hashFull = b.hashFull
  nodesPerSecond : a.nodesPerSecond = b.nodesPerSecond
  tablebaseHits : a.tablebaseHits = b.tablebaseHits
  multiPv : a.multiPv = b.multiPv
  variation : a.variation.map (·.text display.chess960) =
    b.variation.map (·.text display.chess960)
  comment : a.comment = b.comment

theorem toNat32_injective : Function.Injective UInt32.toNat := fun _ _ => UInt32.toNat_inj.1

theorem toNat64_injective : Function.Injective UInt64.toNat := fun _ _ => UInt64.toNat_inj.1

theorem Progress.depthWords_iff {a b : Option Int32} :
    a.map depthWords = b.map depthWords ↔ a.map (max ·.toInt 1) = b.map (max ·.toInt 1) := by
  have words : depthWords = (fun depth => [depth.repr]) ∘ (max ·.toInt 1) := rfl
  rw [words, ← Option.map_map, ← Option.map_map, Figure.map_word_iff Numeral.repr_injective]

variable (display : Display)

theorem Progress.shown_eq_iff {a b : Progress} :
    a.shown display = b.shown display ↔ Progress.Agree display a b := by
  simp only [shown, figures, Shown.mk.injEq, List.cons.injEq, Figure.mk.injEq, true_and, and_true,
    Figure.map_number_iff toNat32_injective, Figure.map_number_iff toNat64_injective,
    Figure.map_word_iff Side.name_injective, Figure.map_word_iff Numeral.writeInt32_injective,
    (Option.map_injective Score.words_injective).eq_iff, Figure.shown_iff,
    (Option.map_injective Chances.words_injective).eq_iff, depthWords_iff]
  constructor
  · rintro ⟨⟨player, gameId, side, depth, selectiveDepth, time, nodes, score, wdl, movesLeft,
      hashFull, nodesPerSecond, tablebaseHits, multiPv⟩, variation, comment⟩
    exact ⟨player, gameId, side, depth, selectiveDepth, time, nodes, score, wdl, movesLeft,
      hashFull, nodesPerSecond, tablebaseHits, multiPv, variation, comment⟩
  · rintro ⟨player, gameId, side, depth, selectiveDepth, time, nodes, score, wdl, movesLeft,
      hashFull, nodesPerSecond, tablebaseHits, multiPv, variation, comment⟩
    exact ⟨⟨player, gameId, side, depth, selectiveDepth, time, nodes, score, wdl, movesLeft,
      hashFull, nodesPerSecond, tablebaseHits, multiPv⟩, variation, comment⟩

theorem BestMove.figures_eq_iff {a b : BestMove} :
    a.figures display = b.figures display ↔
      a.ponder.map (·.text display.chess960) = b.ponder.map (·.text display.chess960) ∧
      a.player = b.player ∧ a.gameId = b.gameId ∧ a.side = b.side := by
  simp only [figures, List.cons.injEq, Figure.mk.injEq, true_and, and_true,
    Figure.map_singleton_iff fun move : Move => move.text display.chess960,
    Figure.map_number_iff toNat32_injective, Figure.map_word_iff Side.name_injective]

/-- Reports the moves of which stay on the board have the same line just if they agree in all that
is shown of them. -/
theorem Report.line_eq_iff_agree :
    (∀ a b : Progress, (∀ move ∈ a.variation, move.OnBoard) →
      (∀ move ∈ b.variation, move.OnBoard) →
        (a.line display = b.line display ↔ Progress.Agree display a b)) ∧
    ∀ a b : BestMove, (∀ move ∈ a.moves, move.OnBoard) → (∀ move ∈ b.moves, move.OnBoard) →
      (a.line display = b.line display ↔ BestMove.Agree display a b) := by
  constructor
  · intro a b first second
    exact (Progress.line_eq_iff display first second).trans (Progress.shown_eq_iff display)
  · intro a b first second
    constructor
    · intro same
      have shown := congrArg BestMove.readLine same
      rw [BestMove.readLine_line display first, BestMove.readLine_line display second,
        Prod.mk.injEq, Option.some.injEq, BestMove.figures_eq_iff] at shown
      obtain ⟨move, ponder, player, gameId, side⟩ := shown
      exact ⟨move, ponder, player, gameId, side⟩
    · rintro ⟨move, ponder, player, gameId, side⟩
      have figures := (BestMove.figures_eq_iff display).2 ⟨ponder, player, gameId, side⟩
      rw [BestMove.line_figures, BestMove.line_figures, move, figures]

-- Castling short is written as the king's own step, and a comment is never taken for a depth.
theorem Report.comment_is_no_depth :
    let display : Display := ⟨false, true, false⟩
    let deep : Progress := { depth := some 3 }
    let chatty : Progress := { variation := [.castling ⟨4, 0⟩ ⟨7, 0⟩], comment := "depth 3" }
    let short : BestMove := { move := .castling ⟨4, 0⟩ ⟨7, 0⟩ }
    let step : BestMove := { move := .plain ⟨4, 0⟩ ⟨6, 0⟩ none }
    (∀ move ∈ deep.variation, move.OnBoard) ∧ (∀ move ∈ chatty.variation, move.OnBoard) ∧
    deep.line display ≠ chatty.line display ∧
    (∀ move ∈ short.moves, move.OnBoard) ∧ (∀ move ∈ step.moves, move.OnBoard) ∧
    short.line display = step.line display := by
  intro display deep chatty short step
  have first : ∀ move ∈ deep.variation, move.OnBoard := by decide
  have second : ∀ move ∈ chatty.variation, move.OnBoard := by decide
  have third : ∀ move ∈ short.moves, move.OnBoard := by decide
  have fourth : ∀ move ∈ step.moves, move.OnBoard := by decide
  obtain ⟨progress, results⟩ := Report.line_eq_iff_agree display
  refine ⟨first, second, fun same => ?_, third, fourth, ?_⟩
  · exact absurd ((progress deep chatty first second).1 same).comment (by decide)
  · exact (results short step third fourth).2 ⟨by decide, rfl, rfl, rfl, rfl⟩

end UciProtocol
