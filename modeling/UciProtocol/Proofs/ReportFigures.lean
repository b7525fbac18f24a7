import UciProtocol.Proofs.LineBreaks
import UciProtocol.Proofs.MoveTexts
import UciProtocol.Proofs.Numerals
import UciProtocol.Report

/-! The figures of a report.

A report is a row of figures, behind which progress has a variation and a comment. A figure has a
keyword of its own and a fixed number of words, none of which has a space or a line feed in it.
-/

set_option autoImplicit false

namespace UciProtocol

namespace Text

/-- The text has no space and no line feed in it. -/
def Whole (text : String) : Prop := ∀ c ∈ text.toList, c ≠ ' ' ∧ c ≠ '\n'

instance (text : String) : Decidable (Whole text) := List.decidableBAll _ _

variable {text : String}

theorem Whole.unbroken (whole : Whole text) : Unbroken text :=
  fun member => (whole '\n' member).2 rfl

theorem Whole.append {back : String} (first : Whole text) (last : Whole back) :
    Whole (text ++ back) := by
  intro c member
  rw [String.toList_append] at member
  exact (List.mem_append.1 member).elim (first c) (last c)

theorem apart_of_isDigit {c : Char} (digit : c.isDigit = true) : c ≠ ' ' ∧ c ≠ '\n' := by
  constructor
  · rintro rfl
    exact absurd digit (by decide)
  · rintro rfl
    exact absurd digit (by decide)

theorem whole_repr (n : Nat) : Whole n.repr := by
  intro c member
  rw [Nat.toList_repr] at member
  exact apart_of_isDigit (Nat.isDigit_of_mem_toDigits (by decide) (by decide) member)

theorem whole_int_repr (value : Int) : Whole value.repr := by
  intro c member
  rw [Numeral.toList_repr] at member
  rcases List.mem_append.1 member with sign | digit
  · split at sign
    · rw [List.mem_singleton.1 sign]
      decide
    · cases sign
  · exact apart_of_isDigit (Nat.isDigit_of_mem_toDigits (by decide) (by decide) digit)

end Text

open Text

/-! ### Moves -/

-- A letter that names a file comes behind all separators.
theorem Square.OnBoard.whole_text {square : Square} (inside : square.OnBoard) :
    Whole square.text := by
  have rank : square.rank.toNat < 8 := UInt8.lt_iff_toNat_lt.1 inside.2
  intro c member
  rw [Square.toList_text inside, ← Nat.toDigits_of_lt_base (b := 10) (by omega)] at member
  rcases List.mem_cons.1 member with rfl | digit
  · have a : 'a'.toNat = 97 := rfl
    have space : ' '.toNat = 32 := rfl
    have feed : '\n'.toNat = 10 := rfl
    constructor
    · intro same
      have code := eq_toNat_of_ofNat same (by decide)
      omega
    · intro same
      have code := eq_toNat_of_ofNat same (by decide)
      omega
  · exact apart_of_isDigit (Nat.isDigit_of_mem_toDigits (by decide) (by decide) digit)

theorem Promotion.whole_letter (promotion : Option Promotion) :
    Whole (String.ofList (promotion.map Promotion.letter).toList) := by
  rcases promotion with _ | _ | _ | _ | _ <;> decide

theorem Move.OnBoard.whole_text {move : Move} (inside : move.OnBoard) (chess960 : Bool) :
    Whole (move.text chess960) := by
  unfold Move.text
  split
  · decide
  · cases move with
    | plain origin target promotion =>
      exact (inside.1.whole_text.append inside.2.whole_text).append (Promotion.whole_letter _)
    | castling king rook =>
      exact inside.1.whole_text.append (onBoard_target inside _).whole_text

def BestMove.moves (best : BestMove) : List Move := best.move :: best.ponder.toList

def Report.moves : Report → List Move
  | progress variations => variations.flatMap (·.variation)
  | best result => result.moves

/-! ### Figures -/

/-- A keyword and the words given to it, if there are any. -/
structure Figure where
  keyword : String
  words : Option (List String)
  deriving DecidableEq, Repr

namespace Figure

def group? (figure : Figure) : Option Group := figure.words.map (Group.mk figure.keyword)

def groups (figures : List Figure) : List Group := figures.filterMap group?

def IsWhole (figure : Figure) : Prop :=
  Whole figure.keyword ∧ ∀ words ∈ figure.words, ∀ word ∈ words, Whole word

@[simp]
theorem groups_nil : groups [] = [] := rfl

theorem groups_cons (keyword : String) (words : Option (List String)) (figures : List Figure) :
    groups (⟨keyword, words⟩ :: figures) = Group.ofOption keyword id words ++ groups figures := by
  cases words <;> rfl

theorem whole_of_mem_groups {figures : List Figure} (whole : ∀ figure ∈ figures, figure.IsWhole)
    {word : String} (member : word ∈ (groups figures).flatMap Group.tokens) : Whole word := by
  obtain ⟨group, given, inside⟩ := List.mem_flatMap.1 member
  obtain ⟨figure, row, found⟩ := List.mem_filterMap.1 given
  obtain ⟨words, some, rfl⟩ := Option.map_eq_some_iff.1 found
  rcases List.mem_cons.1 inside with rfl | own
  · exact (whole figure row).1
  · exact (whole figure row).2 words some word own

end Figure

theorem Group.ofOption_map {α : Type} (keyword : String) (words : α → List String)
    (part : Option α) :
    Group.ofOption keyword words part = Group.ofOption keyword id (part.map words) := by
  cases part <;> rfl

theorem Group.ofOption_if {α : Type} (shown : Bool) (keyword : String) (words : α → List String)
    (part : Option α) :
    (if shown then Group.ofOption keyword words part else []) =
      Group.ofOption keyword id (if shown then part.map words else none) := by
  cases shown
  · rfl
  · exact Group.ofOption_map keyword words part

section
variable (display : Display)

def BestMove.figures (best : BestMove) : List Figure :=
  [⟨"ponder", best.ponder.map fun move => [move.text display.chess960]⟩,
    ⟨"player", best.player.map fun n => [n.toNat.repr]⟩,
    ⟨"gameid", best.gameId.map fun n => [n.toNat.repr]⟩,
    ⟨"side", best.side.map fun side => [side.name]⟩]

def Progress.figures (progress : Progress) : List Figure :=
  [⟨"player", progress.player.map fun n => [n.toNat.repr]⟩,
    ⟨"gameid", progress.gameId.map fun n => [n.toNat.repr]⟩,
    ⟨"side", progress.side.map fun side => [side.name]⟩,
    ⟨"depth", progress.depth.map depthWords⟩,
    ⟨"seldepth", progress.selectiveDepth.map fun n => [Numeral.writeInt32 n]⟩,
    ⟨"time", progress.time.map fun n => [n.toNat.repr]⟩,
    ⟨"nodes", progress.nodes.map fun n => [n.toNat.repr]⟩,
    ⟨"score", progress.score.map Score.words⟩,
    ⟨"wdl", if display.showWdl then progress.wdl.map Chances.words else none⟩,
    ⟨"movesleft",
      if display.showMovesLeft then progress.movesLeft.map fun n => [n.toNat.repr] else none⟩,
    ⟨"hashfull", progress.hashFull.map fun n => [n.toNat.repr]⟩,
    ⟨"nps", progress.nodesPerSecond.map fun n => [n.toNat.repr]⟩,
    ⟨"tbhits", progress.tablebaseHits.map fun n => [n.toNat.repr]⟩,
    ⟨"multipv", progress.multiPv.map fun n => [n.toNat.repr]⟩]

def Progress.variationWords (progress : Progress) : List String :=
  if progress.variation = [] then []
  else "pv" :: progress.variation.map (·.text display.chess960)

def Progress.commentWords (progress : Progress) : List String :=
  if progress.comment = "" then [] else ["string", progress.comment]

theorem BestMove.groups_figures (best : BestMove) :
    best.groups display = Figure.groups (best.figures display) := by
  unfold BestMove.groups BestMove.figures
  simp only [Figure.groups_cons, Figure.groups_nil, ← Group.ofOption_map, List.append_assoc,
    List.append_nil]

theorem Progress.groups_figures (progress : Progress) :
    progress.groups display = Figure.groups (progress.figures display) ++
      (Group.ofList "pv" (·.text display.chess960) progress.variation ++
        if progress.comment = "" then [] else [⟨"string", [progress.comment]⟩]) := by
  unfold Progress.groups Progress.figures
  simp only [Figure.groups_cons, Figure.groups_nil, ← Group.ofOption_map, ← Group.ofOption_if,
    List.append_assoc, List.append_nil]

theorem Progress.line_figures (progress : Progress) :
    progress.line display =
      " ".intercalate ("info" :: ((Figure.groups (progress.figures display)).flatMap Group.tokens ++
        (progress.variationWords display ++ progress.commentWords))) := by
  have variation : (Group.ofList "pv" (·.text display.chess960) progress.variation).flatMap
      Group.tokens = progress.variationWords display := by
    unfold Progress.variationWords
    cases progress.variation <;> simp [Group.ofList, Group.tokens]
  have comment : (if progress.comment = "" then []
      else [(⟨"string", [progress.comment]⟩ : Group)]).flatMap Group.tokens =
        progress.commentWords := by
    unfold Progress.commentWords
    split <;> simp [Group.tokens]
  rw [Progress.line, Group.line, Progress.groups_figures, List.flatMap_append, List.flatMap_append,
    variation, comment]
  rfl

/-! ### Words of figures -/

/-- The words of a part of a report, whatever it is. -/
theorem Figure.IsWhole.map {α : Type} {keyword : String} (named : Whole keyword)
    {words : α → List String} {part : Option α}
    (whole : ∀ own ∈ part, ∀ word ∈ words own, Whole word) :
    Figure.IsWhole ⟨keyword, part.map words⟩ := by
  refine ⟨named, fun given found word member => ?_⟩
  obtain ⟨own, held, rfl⟩ := Option.map_eq_some_iff.1 found
  exact whole own held word member

theorem Figure.IsWhole.number {α : Type} {keyword : String} (named : Whole keyword)
    (number : α → Nat) (part : Option α) :
    Figure.IsWhole ⟨keyword, part.map fun own => [(number own).repr]⟩ :=
  Figure.IsWhole.map named fun _ _ => List.forall_mem_singleton.2 (whole_repr _)

theorem Figure.IsWhole.shown {keyword : String} {words : Option (List String)} (shown : Bool)
    (whole : Figure.IsWhole ⟨keyword, words⟩) :
    Figure.IsWhole ⟨keyword, if shown then words else none⟩ := by
  cases shown
  · exact ⟨whole.1, by simp⟩
  · exact whole

theorem Side.whole_name (side : Side) : Whole side.name := by
  cases side <;> decide

theorem Score.whole_words (score : Score) : ∀ word ∈ score.words, Whole word := by
  cases score <;>
    exact List.forall_mem_cons.2
      ⟨by decide, List.forall_mem_singleton.2 (whole_int_repr _)⟩

theorem Chances.whole_words (chances : Chances) : ∀ word ∈ chances.words, Whole word := by
  simp [Chances.words, whole_repr]

theorem BestMove.whole_figures {best : BestMove} (inside : ∀ move ∈ best.moves, move.OnBoard) :
    ∀ figure ∈ best.figures display, figure.IsWhole := by
  have ponder : ∀ move ∈ best.ponder, ∀ word ∈ [move.text display.chess960], Whole word := by
    intro move held
    have member : move ∈ best.moves := List.mem_cons_of_mem _ (Option.mem_toList.2 held)
    exact List.forall_mem_singleton.2 ((inside move member).whole_text _)
  have side : ∀ side ∈ best.side, ∀ word ∈ [side.name], Whole word :=
    fun side _ => List.forall_mem_singleton.2 side.whole_name
  unfold BestMove.figures
  simp only [List.forall_mem_cons]
  exact ⟨.map (by decide) ponder, .number (by decide) _ _,
    .number (by decide) _ _, .map (by decide) side, by simp⟩

theorem Progress.whole_figures (progress : Progress) :
    ∀ figure ∈ progress.figures display, figure.IsWhole := by
  have side : ∀ side ∈ progress.side, ∀ word ∈ [side.name], Whole word :=
    fun side _ => List.forall_mem_singleton.2 side.whole_name
  have depth : ∀ depth ∈ progress.depth, ∀ word ∈ depthWords depth, Whole word :=
    fun depth _ => List.forall_mem_singleton.2 (whole_int_repr _)
  have selective : ∀ depth ∈ progress.selectiveDepth, ∀ word ∈ [Numeral.writeInt32 depth],
      Whole word := fun depth _ => List.forall_mem_singleton.2 (whole_int_repr _)
  unfold Progress.figures
  simp only [List.forall_mem_cons]
  exact ⟨.number (by decide) _ _, .number (by decide) _ _,
    .map (by decide) side, .map (by decide) depth,
    .map (by decide) selective, .number (by decide) _ _,
    .number (by decide) _ _, .map (by decide) fun score _ => score.whole_words,
    .shown _ (.map (by decide) fun chances _ => chances.whole_words),
    .shown _ (.number (by decide) _ _), .number (by decide) _ _,
    .number (by decide) _ _, .number (by decide) _ _,
    .number (by decide) _ _, by simp⟩

end

end UciProtocol
