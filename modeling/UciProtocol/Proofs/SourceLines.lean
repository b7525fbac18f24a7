import UciProtocol.Session.Source

/-! The lines that a source delivers.

What a source delivers depends on its bytes alone and not on the pieces they come in: its lines are
its bytes cut behind each line feed, of which a source that fails keeps back an open last one.
-/

set_option autoImplicit false

namespace UciProtocol

namespace Text

section
variable {α : Type} {ends : α → Bool}

theorem cutAfter_closed {body : List α} (inside : ∀ x ∈ body, ends x = false) {last : α}
    (closes : ends last = true) (rest : List α) :
    cutAfter ends (body ++ last :: rest) = (body ++ [last]) :: cutAfter ends rest := by
  induction body with
  | nil => simp [cutAfter, closes]
  | cons x body ih =>
    have here := inside x (by simp)
    have cut := ih fun y member => inside y (by simp [member])
    rw [List.cons_append, cutAfter, cut]
    simp [here]

theorem cutAfter_open {body : List α} (inside : ∀ x ∈ body, ends x = false) (nonempty : body ≠ []) :
    cutAfter ends body = [body] := by
  induction body with
  | nil => exact absurd rfl nonempty
  | cons x body ih =>
    have here := inside x (by simp)
    cases body with
    | nil => simp [cutAfter, here]
    | cons y body =>
      have cut := ih (fun z member => inside z (by simp [member])) (by simp)
      rw [cutAfter, cut]
      simp [here]

theorem cutAfter_flatten (items : List α) : (cutAfter ends items).flatten = items := by
  induction items with
  | nil => rfl
  | cons x items ih =>
    rw [cutAfter]
    split
    · rw [List.flatten_cons, ih, List.singleton_append]
    · split
      next none => rw [none] at ih; rw [← ih]; rfl
      next piece pieces some => rw [some] at ih; rw [← ih]; rfl

-- A piece is not empty, and ends nowhere but behind its last member.
theorem cutAfter_inside {items piece : List α} (member : piece ∈ cutAfter ends items) :
    piece ≠ [] ∧ ∀ x ∈ piece.dropLast, ends x = false := by
  induction items generalizing piece with
  | nil => cases member
  | cons x items ih =>
    rw [cutAfter] at member
    split at member
    · rcases List.mem_cons.1 member with rfl | later
      · simp
      · exact ih later
    · have here : ends x = false := by simpa using ‹¬ ends x = true›
      split at member
      next none =>
        obtain rfl := List.mem_singleton.1 member
        simp
      next first pieces some =>
        rcases List.mem_cons.1 member with rfl | later
        · obtain ⟨nonempty, inside⟩ := ih (some ▸ List.mem_cons_self)
          refine ⟨by simp, fun y inner => ?_⟩
          rw [List.dropLast_cons_of_ne_nil nonempty] at inner
          rcases List.mem_cons.1 inner with rfl | deeper
          · exact here
          · exact inside y deeper
        · exact ih (by simp [some, later])

-- Only the last piece may be open.
theorem cutAfter_closes {items piece : List α} (member : piece ∈ (cutAfter ends items).dropLast) :
    ∃ last, piece.getLast? = some last ∧ ends last = true := by
  induction items generalizing piece with
  | nil => cases member
  | cons x items ih =>
    rw [cutAfter] at member
    split at member
    next closes =>
      cases cut : cutAfter ends items with
      | nil => rw [cut] at member; cases member
      | cons first pieces =>
        rw [cut, List.dropLast_cons_of_ne_nil (by simp), ← cut] at member
        rcases List.mem_cons.1 member with rfl | later
        · exact ⟨x, rfl, closes⟩
        · exact ih later
    next =>
      split at member
      next => cases member
      next first pieces cut =>
        cases pieces with
        | nil => cases member
        | cons second pieces =>
          rw [List.dropLast_cons_of_ne_nil (by simp)] at member
          rw [cut, List.dropLast_cons_of_ne_nil (by simp)] at ih
          rcases List.mem_cons.1 member with rfl | later
          · obtain ⟨last, is, closes⟩ := ih List.mem_cons_self
            exact ⟨last, by rw [List.getLast?_cons, is]; rfl, closes⟩
          · exact ih (by simp [later])

end

end Text

namespace Source

open Text

def bytes (source : Source) : List UInt8 := source.pieces.flatten

def IsClosed (line : List UInt8) : Prop := line.getLast? = some lineFeed

instance (line : List UInt8) : Decidable (IsClosed line) := inferInstanceAs (Decidable (_ = _))

/-- The lines that are delivered of some bytes; behind the last line feed a reader that fails
delivers none. -/
def delivered (bytes : List UInt8) (fails : Bool) : List (List UInt8) :=
  if fails then (byteLines bytes).filter IsClosed else byteLines bytes

-- Nothing is lost, and a line feed stands at the end of each line but perhaps the last.
theorem byteLines_cut (bytes : List UInt8) :
    (byteLines bytes).flatten = bytes ∧
      (∀ line ∈ byteLines bytes, line ≠ [] ∧ lineFeed ∉ line.dropLast) ∧
      ∀ line ∈ (byteLines bytes).dropLast, IsClosed line := by
  refine ⟨cutAfter_flatten bytes, ?_, ?_⟩
  · intro line member
    obtain ⟨nonempty, inside⟩ := cutAfter_inside member
    exact ⟨nonempty, fun inner => by simpa using inside lineFeed inner⟩
  · intro line member
    obtain ⟨byte, is, closes⟩ := cutAfter_closes member
    rw [IsClosed, is, eq_of_beq closes]

theorem byteLines_closed {body : List UInt8} (inside : lineFeed ∉ body) (rest : List UInt8) :
    byteLines (body ++ lineFeed :: rest) = (body ++ [lineFeed]) :: byteLines rest := by
  apply cutAfter_closed
  · intro x member
    exact beq_false_of_ne fun same => inside (same ▸ member)
  · exact beq_self_eq_true lineFeed

theorem byteLines_open {body : List UInt8} (inside : lineFeed ∉ body) (nonempty : body ≠ []) :
    byteLines body = [body] :=
  cutAfter_open (fun _ member => beq_false_of_ne fun same => inside (same ▸ member)) nonempty

theorem delivered_closed {body : List UInt8} (inside : lineFeed ∉ body) (rest : List UInt8)
    (fails : Bool) :
    delivered (body ++ lineFeed :: rest) fails = (body ++ [lineFeed]) :: delivered rest fails := by
  unfold delivered
  rw [byteLines_closed inside]
  cases fails with
  | false => rfl
  | true =>
    have closed : IsClosed (body ++ [lineFeed]) := List.getLast?_concat
    simp [closed]

theorem delivered_failing {body : List UInt8} (inside : lineFeed ∉ body) :
    delivered body true = [] := by
  by_cases empty : body = []
  · rw [empty]
    rfl
  · have not_closed : ¬ IsClosed body := fun closed => inside (List.mem_of_getLast? closed)
    simp [delivered, byteLines_open inside empty, not_closed]

/-! ### Reading a line -/

theorem not_mem_front (piece : List UInt8) : lineFeed ∉ piece.takeWhile (· != lineFeed) := by
  intro member
  simpa using List.all_eq_true.1 List.all_takeWhile lineFeed member

theorem not_mem_of_dropWhile {piece : List UInt8} (none : piece.dropWhile (· != lineFeed) = []) :
    lineFeed ∉ piece := by
  have whole := List.takeWhile_append_dropWhile (p := (· != lineFeed)) (l := piece)
  rw [none, List.append_nil] at whole
  rw [← whole]
  exact not_mem_front piece

theorem lineFrom_closed {pieces rest : List (List UInt8)}
    (found : (lineFrom pieces).2 = some rest) :
    ∃ body, lineFeed ∉ body ∧ (lineFrom pieces).1 = body ++ [lineFeed] ∧
      pieces.flatten = body ++ lineFeed :: rest.flatten := by
  induction pieces with
  | nil => cases found
  | cons piece pieces ih =>
    rw [lineFrom] at found ⊢
    split
    next none =>
      rw [none] at found
      have outside := not_mem_of_dropWhile none
      obtain ⟨body, inside, first, whole⟩ := ih found
      refine ⟨piece ++ body, by simp [outside, inside], by simp [first], by simp [whole]⟩
    next last back some =>
      rw [some] at found
      cases found
      have stops := List.head?_dropWhile_not (· != lineFeed) piece
      rw [some] at stops
      obtain rfl : last = lineFeed := by simpa using stops
      have whole := List.takeWhile_append_dropWhile (p := (· != lineFeed)) (l := piece)
      rw [some] at whole
      refine ⟨piece.takeWhile (· != lineFeed), not_mem_front piece, rfl, ?_⟩
      rw [List.flatten_cons, List.flatten_cons, ← List.cons_append, ← List.append_assoc, whole]

theorem lineFrom_open {pieces : List (List UInt8)} (none : (lineFrom pieces).2 = none) :
    lineFeed ∉ pieces.flatten ∧ (lineFrom pieces).1 = pieces.flatten := by
  induction pieces with
  | nil => exact ⟨List.not_mem_nil, rfl⟩
  | cons piece pieces ih =>
    rw [lineFrom] at none ⊢
    split
    next empty =>
      rw [empty] at none
      have outside := not_mem_of_dropWhile empty
      obtain ⟨inside, whole⟩ := ih none
      exact ⟨by simp [outside, inside], by simp [whole]⟩
    next last back some =>
      rw [some] at none
      cases none

def lines (source : Source) : List (List UInt8) := delivered source.bytes source.fails

-- Reading a line takes the first of the lines, and comes to an end when there is none.
theorem read_lines (source : Source) :
    match source.read with
    | .line line rest => source.lines = line :: rest.lines ∧ rest.fails = source.fails
    | .ended => source.lines = [] ∧ source.fails = false
    | .failed => source.lines = [] ∧ source.fails = true := by
  rw [Source.read]
  cases found : lineFrom source.pieces with
  | mk front left =>
    cases left with
    | some rest =>
      obtain ⟨body, inside, same, whole⟩ := lineFrom_closed (congrArg Prod.snd found)
      rw [found] at same
      cases same
      refine ⟨?_, rfl⟩
      rw [lines, bytes, whole, delivered_closed inside]
      rfl
    | none =>
      obtain ⟨inside, same⟩ := lineFrom_open (congrArg Prod.snd found)
      rw [found] at same
      cases same
      dsimp only
      -- No line feed is left: a source that fails delivers nothing more, another one its rest.
      by_cases fails : source.fails = true
      · rw [if_pos fails, lines, fails]
        exact ⟨delivered_failing inside, rfl⟩
      · have works : source.fails = false := by simpa using fails
        rw [if_neg fails]
        by_cases empty : source.pieces.flatten = []
        · rw [if_pos empty, lines, bytes, empty, works]
          exact ⟨rfl, rfl⟩
        · rw [if_neg empty]
          refine ⟨?_, rfl⟩
          rw [lines, bytes, works]
          exact byteLines_open inside empty

/-! ### Cutting bytes into pieces -/

theorem cut_flatten (size : BufferSize) (bytes : List UInt8) :
    (cut size bytes).flatten = bytes := by
  fun_induction cut size bytes with
  | case1 => rfl
  | case2 byte rest ih => rw [List.flatten_cons, ih, List.cons_append, List.take_append_drop]

theorem lines_ofBytes (bytes : List UInt8) (size : BufferSize) (fails : Bool) :
    (ofBytes bytes size fails).lines = delivered bytes fails :=
  congrArg (delivered · fails) (cut_flatten size bytes)

end Source

end UciProtocol
