import Mathlib.Algebra.GroupWithZero.Nat
import UciProtocol.Proofs.SourceLines
import UciProtocol.Proofs.Words

/-! Line feeds in a text, and the lines that they end.

A text that is made of lines, each with a line feed behind it, is cut into these lines, if none of
them has a line feed inside. What is cut off of a text at blanks has none.
-/

set_option autoImplicit false

namespace UciProtocol.Text

def Unbroken (text : String) : Prop := '\n' ∉ text.toList

instance (text : String) : Decidable (Unbroken text) := inferInstanceAs (Decidable (_ ∉ _))

-- What is no code point becomes the null character, so any other character tells its code.
theorem eq_toNat_of_ofNat {n : Nat} {c : Char} (same : Char.ofNat n = c) (other : c ≠ '\x00') :
    n = c.toNat := by
  by_cases valid : n.isValidChar
  · rw [← same, Char.ofNat, dif_pos valid]
    rfl
  · rw [Char.ofNat, dif_neg valid] at same
    exact absurd same.symm other

theorem toList_append_lineFeed (text : String) :
    (text ++ "\n").toList = text.toList ++ ['\n'] :=
  String.toList_append

theorem Unbroken.append {front back : String} (first : Unbroken front) (last : Unbroken back) :
    Unbroken (front ++ back) := by
  rw [Unbroken, String.toList_append]
  exact fun member => (List.mem_append.1 member).elim first last

theorem unbroken_ofList {text : List Char} {whole : String} (unbroken : Unbroken whole)
    (inside : text ⊆ whole.toList) : Unbroken (String.ofList text) := by
  rw [Unbroken, String.toList_ofList]
  exact fun member => unbroken (inside member)

theorem unbroken_of_isWord {word : String} (isWord : IsWord word) : Unbroken word := by
  intro member
  exact absurd (isWord.2 '\n' member) (by decide)

-- The spaces between the items add no line feed to theirs.
theorem count_intercalate (items : List String) :
    (" ".intercalate items).toList.count '\n' = (items.map (·.toList.count '\n')).sum := by
  have space : " ".toList = [' '] := rfl
  rw [String.toList_intercalate, space]
  induction items with
  | nil => rfl
  | cons item items ih =>
    cases items with
    | nil => simp
    | cons next items =>
      have apart : [' '].count '\n' = 0 := by decide
      rw [List.map_cons, List.map_cons, List.intercalate_cons_cons, ← List.map_cons,
        List.count_append, List.count_append, ih, apart, Nat.add_zero, List.map_cons (a := item),
        List.sum_cons]

theorem unbroken_intercalate {items : List String} (unbroken : ∀ item ∈ items, Unbroken item) :
    Unbroken (" ".intercalate items) := by
  rw [Unbroken, ← List.count_eq_zero, count_intercalate, List.sum_eq_zero_iff_forall_eq_nat]
  intro count member
  obtain ⟨item, given, rfl⟩ := List.mem_map.1 member
  exact List.count_eq_zero.2 (unbroken item given)

/-! ### How a text begins -/

def Opens (lead text : String) : Prop := lead.toList <+: text.toList

instance (lead text : String) : Decidable (Opens lead text) :=
  inferInstanceAs (Decidable (_ <+: _))

theorem opens_append (lead rest : String) : Opens lead (lead ++ rest) := by
  rw [Opens, String.toList_append]
  exact List.prefix_append _ _

theorem opens_intercalate (lead : String) (rest : List String) :
    Opens lead (" ".intercalate (lead :: rest)) := by
  cases rest with
  | nil => simp [Opens]
  | cons next rest =>
    rw [String.intercalate_cons_cons, String.append_assoc]
    exact opens_append _ _

-- A line feed at the end of a text is no part of what it begins with.
theorem opens_line_iff {lead text : String} (unbroken : Unbroken lead) :
    Opens lead (text ++ "\n") ↔ Opens lead text := by
  rw [Opens, toList_append_lineFeed, List.prefix_concat_iff]
  refine or_iff_right fun whole => unbroken ?_
  simp [whole]

theorem Opens.comparable {lead other text : String} (first : Opens lead text)
    (second : Opens other text) : Opens lead other ∨ Opens other lead :=
  List.prefix_or_prefix_of_prefix first second

/-! ### Lines -/

section
variable {α : Type} {ends : α → Bool} {last : α}

-- A text may be cut behind any line that ends, and the two parts by themselves.
theorem cutAfter_append (closes : ends last = true) (front back : List α) :
    cutAfter ends (front ++ last :: back) =
      cutAfter ends (front ++ [last]) ++ cutAfter ends back := by
  induction front with
  | nil => simp [cutAfter, closes]
  | cons x front ih =>
    rw [List.cons_append, List.cons_append, cutAfter, cutAfter, ih]
    split
    · rfl
    · cases cut : cutAfter ends (front ++ [last]) with
      | nil =>
        have whole : (cutAfter ends (front ++ [last])).flatten = front ++ [last] :=
          cutAfter_flatten _
        rw [cut] at whole
        simp at whole
      | cons piece pieces => rfl

theorem cutAfter_ends (closes : ends last = true) {front piece : List α}
    (member : piece ∈ cutAfter ends (front ++ [last])) :
    ∃ x, piece.getLast? = some x ∧ ends x = true := by
  induction front generalizing piece with
  | nil =>
    simp only [List.nil_append, cutAfter, closes, if_true, List.mem_singleton] at member
    exact ⟨last, by rw [member]; rfl, closes⟩
  | cons x front ih =>
    rw [List.cons_append, cutAfter] at member
    split at member
    next here =>
      rcases List.mem_cons.1 member with rfl | later
      · exact ⟨x, rfl, here⟩
      · exact ih later
    next =>
      split at member
      next none =>
        have whole : (cutAfter ends (front ++ [last])).flatten = front ++ [last] :=
          cutAfter_flatten _
        rw [none] at whole
        simp at whole
      next first pieces cut =>
        rcases List.mem_cons.1 member with rfl | later
        · obtain ⟨y, is, stops⟩ := ih (cut ▸ List.mem_cons_self)
          exact ⟨y, by rw [List.getLast?_cons, is]; rfl, stops⟩
        · exact ih (by simp [cut, later])

theorem length_cutAfter (closes : ends last = true) (front : List α) :
    (cutAfter ends (front ++ [last])).length = front.countP ends + 1 := by
  induction front with
  | nil => simp [cutAfter, closes]
  | cons x front ih =>
    rw [List.cons_append, cutAfter]
    split
    next here => rw [List.length_cons, ih, List.countP_cons_of_pos here]
    next inside =>
      rw [List.countP_cons_of_neg inside, ← ih]
      cases cut : cutAfter ends (front ++ [last]) with
      | nil =>
        rw [cut] at ih
        cases ih
      | cons piece pieces => rfl

end

/-- Lines as one text, each with a line feed behind it. -/
def closed (lines : List String) : String := String.join (lines.map (· ++ "\n"))

theorem closed_append (front back : List String) :
    closed (front ++ back) = closed front ++ closed back := by
  simp [closed]

theorem toList_closed_cons (line : String) (rest : List String) :
    (closed (line :: rest)).toList = line.toList ++ '\n' :: (closed rest).toList := by
  simp [closed]

/-- Whatever is in the lines, no line is cut across the line feed behind one of them. -/
theorem lines_closed (texts : List String) :
    lines (closed texts).toList = texts.flatMap fun text => lines (text ++ "\n").toList := by
  induction texts with
  | nil => rfl
  | cons text texts ih =>
    rw [toList_closed_cons, lines, cutAfter_append (by rfl), ← lines, ← lines, ih,
      List.flatMap_cons, toList_append_lineFeed]

theorem ends_of_mem_lines {texts : List String} {line : List Char}
    (member : line ∈ lines (closed texts).toList) : line.getLast? = some '\n' := by
  rw [lines_closed] at member
  obtain ⟨text, -, inside⟩ := List.mem_flatMap.1 member
  rw [toList_append_lineFeed] at inside
  obtain ⟨c, is, closes⟩ := cutAfter_ends (by rfl) inside
  rw [is, eq_of_beq closes]

theorem lines_unbroken {text : String} (unbroken : Unbroken text) :
    lines (text ++ "\n").toList = [(text ++ "\n").toList] := by
  have inside : ∀ c ∈ text.toList, (c == '\n') = false := by
    intro c member
    exact beq_false_of_ne fun same => unbroken (same ▸ member)
  rw [toList_append_lineFeed, lines, cutAfter_closed inside (by rfl)]
  rfl

theorem length_lines (text : String) :
    (lines (text ++ "\n").toList).length = text.toList.count '\n' + 1 := by
  rw [toList_append_lineFeed, lines, length_cutAfter (by rfl), List.count]

theorem lines_closed_unbroken {texts : List String} (unbroken : ∀ text ∈ texts, Unbroken text) :
    lines (closed texts).toList = texts.map fun text => (text ++ "\n").toList := by
  induction texts with
  | nil => rfl
  | cons text texts ih =>
    obtain ⟨first, rest⟩ := List.forall_mem_cons.1 unbroken
    have later := ih rest
    rw [lines_closed] at later ⊢
    rw [List.flatMap_cons, lines_unbroken first, later]
    rfl

end UciProtocol.Text
