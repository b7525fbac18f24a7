import UciProtocol.Output
import UciProtocol.Proofs.ReportFigures
import UciProtocol.Setting

/-! The lines that are written.

What a line is about can be told from its beginning. Of all that a report holds, only a comment can
have a line feed in it: every report of progress is written behind the one before, with a line feed
at its end, and is one line just if its comment is not broken.
-/

set_option autoImplicit false

namespace UciProtocol

open Text

theorem Sink.sendAll_singleton (sink : Sink) (line : String) :
    sink.sendAll [line] = sink.send line :=
  List.append_nil _

namespace Event

theorem output_append (front back : List Event) :
    output (front ++ back) = output front ++ output back := by
  simp [output, List.filterMap_append]

theorem output_sendAll (lines : List String) :
    output (Sink.working.sendAll lines) = closed lines := by
  induction lines with
  | nil => rfl
  | cons line lines ih =>
    have first : output (Sink.working.send line) = line ++ "\n" := by
      simp [output, Sink.send, Sink.failure?]
    have whole : Sink.working.sendAll (line :: lines) =
        Sink.working.send line ++ Sink.working.sendAll lines := rfl
    rw [whole, output_append, first, ih]
    simp [closed]

end Event

/-! ### How lines begin -/

theorem Setting.line_opens (setting : Setting) : Opens "option name " setting.line := by
  rw [line, String.append_assoc, String.append_assoc]
  exact opens_append _ _

theorem Report.line_opens {display : Display} {report : Report} {line : String}
    (member : line ∈ report.lines display) : Opens "info" line ∨ Opens "bestmove" line := by
  cases report with
  | progress variations =>
    obtain ⟨progress, -, rfl⟩ := List.mem_map.1 member
    exact .inl (opens_intercalate _ _)
  | best result =>
    rw [List.mem_singleton.1 member]
    exact .inr (opens_intercalate _ _)

/-! ### Reports -/

section
variable (display : Display)

namespace Progress

variable (progress : Progress)

def leadWords : List String :=
  "info" :: ((Figure.groups (progress.figures display)).flatMap Group.tokens ++
    progress.variationWords display)

theorem line_leadWords :
    progress.line display =
      " ".intercalate (progress.leadWords display ++ progress.commentWords) := by
  rw [line_figures, leadWords, List.cons_append, List.append_assoc]

section
variable {progress : Progress} (inside : ∀ move ∈ progress.variation, move.OnBoard)
include inside

theorem whole_variationWords : ∀ word ∈ progress.variationWords display, Whole word := by
  unfold variationWords
  split
  · simp
  · simp only [List.forall_mem_cons, List.forall_mem_map]
    exact ⟨by decide, fun move member => (inside move member).whole_text _⟩

theorem whole_leadWords : ∀ word ∈ progress.leadWords display, Whole word := by
  unfold leadWords
  simp only [List.forall_mem_cons, List.forall_mem_append]
  exact ⟨by decide, fun word => Figure.whole_of_mem_groups (progress.whole_figures display),
    whole_variationWords display inside⟩

/-- The line feeds of a line are those of its comment. -/
theorem count_line :
    (progress.line display).toList.count '\n' = progress.comment.toList.count '\n' := by
  have lead : ((progress.leadWords display).map (·.toList.count '\n')).sum = 0 := by
    rw [List.sum_eq_zero_iff_forall_eq_nat]
    intro count member
    obtain ⟨word, own, rfl⟩ := List.mem_map.1 member
    exact List.count_eq_zero.2 (whole_leadWords display inside word own).unbroken
  have comment : (progress.commentWords.map (·.toList.count '\n')).sum =
      progress.comment.toList.count '\n' := by
    unfold commentWords
    split
    next none => rw [none]; rfl
    next => simp
  rw [line_leadWords, count_intercalate, List.map_append, List.sum_append, lead, comment,
    Nat.zero_add]

theorem unbroken_line_iff : Unbroken (progress.line display) ↔ Unbroken progress.comment := by
  unfold Unbroken
  rw [← List.count_eq_zero, count_line display inside, List.count_eq_zero]

end

end Progress

theorem Report.length_lines_reports {reports : List Progress}
    (inside : ∀ report ∈ reports, ∀ move ∈ report.variation, move.OnBoard) :
    (reports.flatMap fun report => Text.lines (report.line display ++ "\n").toList).length =
      reports.length + (reports.map (·.comment.toList.count '\n')).sum := by
  induction reports with
  | nil => rfl
  | cons report reports ih =>
    obtain ⟨first, rest⟩ := List.forall_mem_cons.1 inside
    rw [List.flatMap_cons, List.length_append, ih rest, length_lines,
      Progress.count_line display first, List.map_cons, List.sum_cons, List.length_cons]
    omega

end

/-- Reports of progress are written one behind the other, each as its line and a line feed. Where
their moves stay on the board, a further line begins behind every line feed of a comment and
nowhere else, so that they are as many lines as reports just if there is none. -/
theorem Report.progress_written {Responder : Type} (responder : Responder) (display : Display)
    (reports : List Progress) :
    let written := Event.output
      ((Engine.Signal.report responder (.progress reports)).events display .working)
    let lines := Text.lines written.toList
    written = String.join (reports.map fun report => report.line display ++ "\n") ∧
    lines = reports.flatMap (fun report => Text.lines (report.line display ++ "\n").toList) ∧
    (∀ line ∈ lines, line.getLast? = some '\n') ∧
    ((∀ report ∈ reports, ∀ move ∈ report.variation, move.OnBoard) →
      lines.length = reports.length + (reports.map (·.comment.toList.count '\n')).sum ∧
      (lines = reports.map (fun report => (report.line display ++ "\n").toList) ↔
        ∀ report ∈ reports, '\n' ∉ report.comment.toList)) := by
  intro written lines
  have sent : written = closed (reports.map (·.line display)) := Event.output_sendAll _
  have whole : lines = Text.lines (closed (reports.map (·.line display))).toList :=
    congrArg (Text.lines ·.toList) sent
  have cut : lines = reports.flatMap fun report =>
      Text.lines (report.line display ++ "\n").toList := by
    rw [whole, lines_closed, List.flatMap_map]
  refine ⟨?_, cut, fun line member => ends_of_mem_lines (whole ▸ member), fun inside => ?_⟩
  · rw [sent, closed, List.map_map]
    rfl
  · have count : lines.length =
        reports.length + (reports.map (·.comment.toList.count '\n')).sum := by
      rw [cut, length_lines_reports display inside]
    refine ⟨count, ?_, fun unbroken => ?_⟩
    · intro same
      rw [same, List.length_map] at count
      have none : (reports.map (·.comment.toList.count '\n')).sum = 0 := by omega
      rw [List.sum_eq_zero_iff_forall_eq_nat] at none
      exact fun report member => List.count_eq_zero.1 (none _ (List.mem_map_of_mem member))
    · have solid : ∀ text ∈ reports.map (·.line display), Unbroken text := by
        intro text member
        obtain ⟨report, own, rfl⟩ := List.mem_map.1 member
        exact (Progress.unbroken_line_iff display (inside report own)).2 (unbroken report own)
      rw [whole, lines_closed_unbroken solid, List.map_map]
      rfl

-- The line feed of the first comment makes a third line.
theorem Report.broken_comment_goes_on :
    let e2e4 : Move := .plain ⟨4, 1⟩ ⟨4, 3⟩ none
    let short : Move := .castling ⟨4, 0⟩ ⟨7, 0⟩
    let reports : List Progress :=
      [{ variation := [e2e4, short], comment := "a\nb" }, { depth := some 3, comment := "c" }]
    let written := Event.output
      ((Engine.Signal.report () (.progress reports)).events ⟨false, true, false⟩ .working)
    (∀ report ∈ reports, ∀ move ∈ report.variation, move.OnBoard) ∧
    written = "info pv e2e4 e1g1 string a\nb\ninfo depth 3 string c\n" ∧
    (Text.lines written.toList).length = 3 := by
  intro e2e4 short reports written
  have inside : ∀ report ∈ reports, ∀ move ∈ report.variation, move.OnBoard := by decide
  obtain ⟨text, -, -, count⟩ := Report.progress_written () ⟨false, true, false⟩ reports
  exact ⟨inside, text.trans (by decide), (count inside).1.trans (by decide)⟩

/-- A comment with a line feed in it goes on as a line of its own. -/
theorem Report.comment_forges_best_move :
    let report : Progress := { comment := "x\nbestmove e2e4" }
    let written := Event.output
      ((Engine.Signal.report () (.progress [report])).events ⟨false, true, false⟩ .working)
    written = "info string x\nbestmove e2e4\n" ∧
    Text.lines written.toList = ["info string x\n".toList, "bestmove e2e4\n".toList] ∧
    (Text.lines written.toList).length ≠ [report].length := by
  decide

end UciProtocol
