import UciProtocol.Proofs.WrittenAssignments

/-! Assignments that are stated again from what was read of them.

Keywords are set apart by separators, but names, values and contexts are trimmed of every blank. A
blank that is no separator can therefore hide a keyword until it is trimmed away: what is read then
ends with a word that ends a name, or begins with one that begins a context. An assignment is read
again as it was just if this has not happened.
-/

set_option autoImplicit false

namespace UciProtocol

open Text

namespace Text

/-- A blank that does not set a keyword apart. -/
def IsLoose (c : Char) : Prop := isBlank c = true ∧ isSeparator c = false

instance (c : Char) : Decidable (IsLoose c) := inferInstanceAs (Decidable (_ ∧ _))

variable {word text before after : List Char}

theorem StandsApart.nonempty (apart : StandsApart word text before after) (solid : word ≠ []) :
    text ≠ [] := by
  rw [apart.1]
  simp [solid]

-- The text may go on behind a separator or behind a word that is not at its end.
theorem StandsApart.append (apart : StandsApart word text before after) {back : List Char}
    (ends : after = [] → ∀ c ∈ back.head?, isSeparator c = true) :
    StandsApart word (text ++ back) before (after ++ back) := by
  obtain ⟨cut, left, right⟩ := apart
  refine ⟨by rw [cut, List.append_assoc], left, ?_⟩
  cases after with
  | nil => exact ends rfl
  | cons c after => exact right

theorem StandsApart.prepend (apart : StandsApart word text before after) {front : List Char}
    (begins : before = [] → ∀ c ∈ front.getLast?, isSeparator c = true) :
    StandsApart word (front ++ text) (front ++ before) after := by
  obtain ⟨cut, left, right⟩ := apart
  refine ⟨by rw [cut]; simp only [List.append_assoc], ?_, right⟩
  cases before with
  | nil => simpa using begins rfl
  | cons c before => simpa [List.getLast?_append] using left

end Text

namespace Assignment

variable {text : List Char} {assignment : Assignment}

/-- The name of an assignment holds no word that would end it. -/
def NamedApart (assignment : Assignment) : Prop :=
  ∀ before after, ¬ StandsApart "value".toList assignment.name.toList before after

/-- The context of an assignment holds no word that would begin another one. -/
def PlacedApart (assignment : Assignment) : Prop :=
  ∀ before after, ¬ StandsApart "context".toList assignment.context.toList before after

/-! ### What has been read -/

/-- The places of the parts in a text from which an assignment is read. -/
inductive Parts (text : List Char) : Assignment → Prop where
  | inContext {name rest value context : List Char} : Opened text name rest →
      IsPhrase (trim name) → StandsLast "context".toList (trim rest) value context →
      IsPhrase (trim value) → IsPhrase (trim context) →
      Parts text ⟨String.ofList (trim name), String.ofList (trim value),
        String.ofList (trim context)⟩
  | everywhere {name rest : List Char} : Opened text name rest → IsPhrase (trim name) →
      (∀ value context, ¬ StandsApart "context".toList (trim rest) value context) →
      IsPhrase (trim rest) → Parts text ⟨String.ofList (trim name), String.ofList (trim rest), ""⟩

theorem parts_of_read (accepted : read text = .ok assignment) : Parts text assignment := by
  cases read_eq_iff_reading.1 accepted with
  | inContext opened named last placed valued =>
    exact .inContext opened (isPhrase_trim named) last (isPhrase_trim valued) (isPhrase_trim placed)
  | everywhere opened named absent valued =>
    exact .everywhere opened (isPhrase_trim named) absent (isPhrase_trim valued)

theorem read_cons_blank {c : Char} (blank : isBlank c = true) (text : List Char) :
    read (c :: text) = read text := by
  rw [read, read, trim_cons_blank blank]

theorem Writable.read_render (writable : assignment.Writable) :
    read assignment.render.toList = .ok assignment := by
  rw [← read_cons_blank (c := ' ') (by decide)]
  exact writable.reading.eq_read

theorem Parts.writable (parts : Parts text assignment) (named : assignment.NamedApart)
    (placed : assignment.PlacedApart) : assignment.Writable := by
  cases parts with
  | inContext opened name last value context =>
    have nonempty : String.ofList (trim _) ≠ "" := ofList_ne_empty context.nonempty
    refine ⟨by simpa using name, by simpa using value, fun _ => by simpa using context, named, ?_⟩
    rw [if_neg nonempty]
    exact placed
  | everywhere opened name absent value =>
    exact ⟨by simpa using name, by simpa using value, fun other => absurd rfl other, named,
      by simpa using absent⟩

theorem Parts.phrased (parts : Parts text assignment) : assignment.Phrased := by
  cases parts with
  | inContext opened name last value context =>
    exact ⟨by simpa using name, by simpa using value, fun _ => by simpa using context⟩
  | everywhere opened name absent value =>
    exact ⟨by simpa using name, by simpa using value, fun other => absurd rfl other⟩

theorem Parts.placed (parts : Parts text assignment) (placed : assignment.context ≠ "") :
    ∃ name rest value context, Opened text name rest ∧
      StandsLast "context".toList (trim rest) value context ∧
      assignment.context.toList = trim context := by
  cases parts with
  | inContext opened name last => exact ⟨_, _, _, _, opened, last, String.toList_ofList⟩
  | everywhere => exact absurd rfl placed

theorem Parts.named (parts : Parts text assignment) :
    ∃ name rest, Opened text name rest ∧ IsPhrase (trim name) ∧
      assignment.name.toList = trim name := by
  cases parts with
  | inContext opened name => exact ⟨_, _, opened, name, String.toList_ofList⟩
  | everywhere opened name => exact ⟨_, _, opened, name, String.toList_ofList⟩

/-! ### What the text of an assignment is read as -/

theorem Named.unique {behind other : List Char} (named : Named text behind)
    (again : Named text other) : behind = other := by
  obtain ⟨c, rest, begins, -, rfl⟩ := named
  obtain ⟨d, back, begins', -, rfl⟩ := again
  obtain ⟨-, rfl⟩ := List.cons.inj (List.append_cancel_left (begins.symm.trans begins'))
  rfl

theorem StandsFirst.unique {behind name rest name' rest' : List Char}
    (first : StandsFirst "value".toList behind name rest)
    (again : StandsFirst "value".toList behind name' rest') : name = name' ∧ rest = rest' := by
  have same := (first.found value_nonempty value_solid).symm.trans
    (again.found value_nonempty value_solid)
  simpa using same

theorem placed_of_apart {before after : List Char}
    (apart : StandsApart "context".toList assignment.context.toList before after) :
    assignment.context ≠ "" := fun empty => by
  rw [empty] at apart
  exact apart.nonempty context_nonempty rfl

section
variable (parts : Parts assignment.render.toList assignment)
include parts

-- The name that is read would end before a word that it holds.
theorem Parts.namedApart : assignment.NamedApart := by
  intro before after apart
  obtain ⟨name, rest, ⟨behind, named, first⟩, -, own⟩ := parts.named
  obtain rfl := named.unique parts.phrased.names
  have separated : ∀ c ∈ (' ' :: ("value".toList ++ ' ' :: assignment.behindValue)).head?,
      isSeparator c = true := by simp [isSeparator]
  have earlier := first.2 _ _ (apart.append fun _ => separated)
  have whole := congrArg List.length apart.1
  have shorter := (trim_within name).length_le
  have word : "value".toList.length = 5 := rfl
  simp only [List.length_append, own, word] at whole
  omega

-- The context that is read would begin behind a word that it holds.
theorem Parts.placedApart : assignment.PlacedApart := by
  intro before after apart
  have placed := placed_of_apart apart
  obtain ⟨name, rest, value, context, ⟨behind, named, first⟩, last, own⟩ := parts.placed placed
  obtain rfl := named.unique parts.phrased.names
  obtain ⟨-, rfl⟩ := StandsFirst.unique first
    (StandsFirst.of_absent value_solid (by decide) (by decide) parts.namedApart)
  have written : assignment.behindValue =
      (assignment.value.toList ++ ' ' :: ("context".toList ++ [' '])) ++
        assignment.context.toList := by
    simp [Assignment.behindValue, placed]
  rw [trim_cons_blank (by decide), parts.phrased.behindValue.trim_eq, written] at last
  have later := last.2 _ _ (apart.prepend fun _ => by simp [isSeparator])
  have whole := congrArg List.length last.1.1
  have shorter := (trim_within context).length_le
  rw [← own] at shorter
  have word : "context".toList.length = 7 := rfl
  simp only [List.length_append, List.length_cons, List.length_nil, word] at later whole
  omega

end

theorem read_render_iff (accepted : read text = .ok assignment) :
    read assignment.render.toList = .ok assignment ↔
      assignment.NamedApart ∧ assignment.PlacedApart := by
  constructor
  · intro again
    have parts := parts_of_read again
    exact ⟨parts.namedApart, parts.placedApart⟩
  · rintro ⟨named, placed⟩
    exact ((parts_of_read accepted).writable named placed).read_render

/-! ### Words that were hidden by blanks -/

theorem Named.phrase {behind : List Char} (named : Named text behind) (nonempty : behind ≠ []) :
    IsPhrase behind := by
  obtain ⟨c, rest, -, -, rfl⟩ := named
  exact isPhrase_trim nonempty

theorem Named.within {behind : List Char} (named : Named text behind) : behind <:+: text := by
  obtain ⟨c, rest, begins, -, rfl⟩ := named
  have inside : rest <:+: trim text := ⟨"name".toList ++ [c], [], by simp [begins]⟩
  exact (trim_within rest).trans (inside.trans (trim_within text))

-- A name would have ended before a word that a separator follows.
theorem Parts.name_ends (parts : Parts text assignment) {before after : List Char}
    (apart : StandsApart "value".toList assignment.name.toList before after) :
    after = [] ∧ ∃ c, IsLoose c ∧ assignment.name.toList ++ [c] <:+: text := by
  obtain ⟨name, rest, ⟨behind, named, first⟩, phrase, own⟩ := parts.named
  obtain ⟨lead, tail, cut, before_blank, behind_blank⟩ := exists_trim name
  have phrased := named.phrase (first.1.nonempty value_nonempty)
  obtain rfl : lead = [] := by
    rw [first.1.1, cut] at phrased
    simp only [List.append_assoc] at phrased
    exact phrased.lead_eq_nil before_blank
  rw [List.nil_append, ← own] at cut
  have whole : behind = assignment.name.toList ++ (tail ++ "value".toList ++ rest) := by
    rw [first.1.1, cut, List.append_assoc, List.append_assoc, List.append_assoc]
  -- The word that the name holds comes before the one that ends it.
  have unbounded : ¬ (after = [] →
      ∀ c ∈ (tail ++ "value".toList ++ rest).head?, isSeparator c = true) := by
    intro bounded
    have earlier := first.2 before _ (whole ▸ apart.append bounded)
    have length := congrArg List.length apart.1
    have word : "value".toList.length = 5 := rfl
    simp only [cut, List.length_append, word] at earlier length
    omega
  obtain ⟨rfl, c, next, loose⟩ : after = [] ∧ ∃ c ∈ (tail ++ "value".toList ++ rest).head?,
      ¬ isSeparator c = true := by
    simpa only [Classical.not_imp, not_forall, exists_prop] using unbounded
  refine ⟨rfl, ?_⟩
  cases tail with
  | nil =>
    -- The word that ends the name would follow a letter.
    have letter := first.1.2.1 'e' (by simp [cut, apart.1])
    exact absurd letter (by decide)
  | cons d tail =>
    obtain rfl : d = c := by simpa using next
    exact ⟨d, ⟨behind_blank d List.mem_cons_self, by simpa using loose⟩,
      List.IsInfix.trans ⟨[], tail ++ "value".toList ++ rest, by simp [whole]⟩ named.within⟩

-- A context would have begun behind a word that a separator precedes.
theorem Parts.context_begins (parts : Parts text assignment) {before after : List Char}
    (apart : StandsApart "context".toList assignment.context.toList before after) :
    before = [] ∧ ∃ c, IsLoose c ∧ c :: assignment.context.toList <:+: text := by
  obtain ⟨name, rest, value, context, ⟨behind, named, first⟩, last, own⟩ :=
    parts.placed (placed_of_apart apart)
  obtain ⟨lead, tail, cut, before_blank, behind_blank⟩ := exists_trim context
  have phrased := isPhrase_trim (last.1.nonempty context_nonempty)
  obtain rfl : tail = [] := by
    rw [last.1.1, cut, ← List.append_assoc] at phrased
    exact phrased.tail_eq_nil behind_blank
  rw [List.append_nil, ← own] at cut
  have whole : trim rest = (value ++ "context".toList ++ lead) ++ assignment.context.toList := by
    rw [last.1.1, cut, ← List.append_assoc]
  -- The word that the context holds comes behind the one that begins it.
  have unbounded : ¬ (before = [] →
      ∀ c ∈ (value ++ "context".toList ++ lead).getLast?, isSeparator c = true) := by
    intro bounded
    have later := last.2 _ after (whole ▸ apart.prepend bounded)
    have word : "context".toList.length = 7 := rfl
    simp only [List.length_append, word] at later
    omega
  obtain ⟨rfl, c, next, loose⟩ : before = [] ∧
      ∃ c ∈ (value ++ "context".toList ++ lead).getLast?, ¬ isSeparator c = true := by
    simpa only [Classical.not_imp, not_forall, exists_prop] using unbounded
  refine ⟨rfl, ?_⟩
  rcases List.eq_nil_or_concat lead with rfl | ⟨lead, d, rfl⟩
  · -- The word that begins the context would precede a letter.
    have letter := last.1.2.2 'c' (by simp [cut, apart.1])
    exact absurd letter (by decide)
  · rw [List.concat_eq_append, ← List.append_assoc, List.getLast?_concat] at next
    obtain rfl : d = c := Option.some.inj next
    have inside : d :: assignment.context.toList <:+: trim rest :=
      ⟨value ++ "context".toList ++ lead, [], by simp [whole]⟩
    have within : rest <:+: behind := ⟨name ++ "value".toList, [], by simp [first.1.1]⟩
    exact ⟨d, ⟨before_blank d (by simp), by simpa using loose⟩,
      inside.trans ((trim_within rest).trans (within.trans named.within))⟩

/-- An assignment that has been read is read again from its own text just if its name holds no word
that ends a name and its context none that begins a context. Such a word can only end the name or
begin the context, and it was hidden by a blank that is no separator: without such blanks every
assignment is read again as it was. -/
theorem reads_own_text_iff (accepted : read text = .ok assignment) :
    (read assignment.render.toList = .ok assignment ↔
      assignment.NamedApart ∧ assignment.PlacedApart) ∧
    (∀ before after, StandsApart "value".toList assignment.name.toList before after →
      after = [] ∧ ∃ c, IsLoose c ∧ assignment.name.toList ++ [c] <:+: text) ∧
    (∀ before after, StandsApart "context".toList assignment.context.toList before after →
      before = [] ∧ ∃ c, IsLoose c ∧ c :: assignment.context.toList <:+: text) ∧
    ((∀ c ∈ text, ¬ IsLoose c) → read assignment.render.toList = .ok assignment) := by
  have parts := parts_of_read accepted
  refine ⟨read_render_iff accepted, fun _ _ => parts.name_ends, fun _ _ => parts.context_begins,
    fun tight => (read_render_iff accepted).2 ⟨fun before after apart => ?_,
      fun before after apart => ?_⟩⟩
  · obtain ⟨-, c, loose, inside⟩ := parts.name_ends apart
    exact tight c (inside.subset (by simp)) loose
  · obtain ⟨-, c, loose, inside⟩ := parts.context_begins apart
    exact tight c (inside.subset List.mem_cons_self) loose

theorem reads_own_text_of_context :
    read "name  Clear\tHash value x  context y context \u00a0z".toList =
        .ok ⟨"Clear\tHash", "x  context y", "z"⟩ ∧
      read "name Clear\tHash value x  context y context z".toList =
        .ok ⟨"Clear\tHash", "x  context y", "z"⟩ := by
  have accepted : read "name  Clear\tHash value x  context y context \u00a0z".toList =
      .ok ⟨"Clear\tHash", "x  context y", "z"⟩ := rfl
  refine ⟨accepted, (reads_own_text_iff accepted).1.2 ⟨?_, ?_⟩⟩
  · exact (firstBounded?_eq_none_iff value_nonempty value_solid).1 (by decide)
  · exact (firstBounded?_eq_none_iff context_nonempty context_solid).1 (by decide)

/-- A vertical tab hides the word `value` that a name ends with, and a no-break space the word
`context` that a context begins with. In the texts of the assignments spaces take their places, and
the words are read. -/
theorem loose_blanks_hide_words :
    read "name a value\x0b value 1".toList = .ok ⟨"a value", "1", ""⟩ ∧
      (Assignment.mk "a value" "1" "").render = "name a value value 1" ∧
      read "name a value value 1".toList = .ok ⟨"a", "value 1", ""⟩ ∧
    read "name a value 1 context \u00a0context x".toList = .ok ⟨"a", "1", "context x"⟩ ∧
      (Assignment.mk "a" "1" "context x").render = "name a value 1 context context x" ∧
      read "name a value 1 context context x".toList = .ok ⟨"a", "1 context", "x"⟩ :=
  ⟨rfl, rfl, rfl, rfl, rfl, rfl⟩

end Assignment

end UciProtocol
