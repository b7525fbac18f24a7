import UciProtocol.Text.Occurrence

/-! Keywords found in free text.

A scan that goes on behind each place it meets passes over places that overlap. A word without
separators is not bounded where it overlaps another place of itself, so no bounded place is passed
over: the scan from the left finds the first of all bounded places, the scan from the right the
last one.
-/

set_option autoImplicit false

namespace UciProtocol.Text

/-- A word stands between two parts of a text and is set apart from both. -/
def StandsApart (word text before after : List Char) : Prop :=
  text = before ++ word ++ after ∧ (∀ c ∈ before.getLast?, isSeparator c = true) ∧
    ∀ c ∈ after.head?, isSeparator c = true

/-- Where a word is first set apart. -/
def StandsFirst (word text before after : List Char) : Prop :=
  StandsApart word text before after ∧
    ∀ before' after', StandsApart word text before' after' → before.length ≤ before'.length

/-- Where a word is last set apart. -/
def StandsLast (word text before after : List Char) : Prop :=
  StandsApart word text before after ∧
    ∀ before' after', StandsApart word text before' after' → before'.length ≤ before.length

/-! ### Lists in the order of a measure -/

section
variable {α : Type} {p q : α → Bool} {measure : α → Nat} {items : List α}

theorem find?_eq_some_iff_least (sorted : items.Pairwise (measure · < measure ·)) {item : α} :
    items.find? p = some item ↔
      item ∈ items ∧ p item = true ∧
        ∀ other ∈ items, p other = true → measure item ≤ measure other := by
  induction items with
  | nil => simp
  | cons first items ih =>
    obtain ⟨above, sorted⟩ := List.pairwise_cons.1 sorted
    cases holds : p first with
    | true =>
      rw [List.find?_cons_of_pos holds]
      constructor
      · intro is
        cases is
        refine ⟨by simp, holds, fun other member _ => ?_⟩
        rcases List.mem_cons.1 member with rfl | later
        · exact Nat.le_refl _
        · exact Nat.le_of_lt (above other later)
      · rintro ⟨member, _, least⟩
        rcases List.mem_cons.1 member with rfl | later
        · rfl
        · have := least first (by simp) holds
          have := above item later
          omega
    | false =>
      rw [List.find?_cons_of_neg (by simp [holds]), ih sorted]
      constructor
      · rintro ⟨member, own, least⟩
        refine ⟨by simp [member], own, fun other member other_holds => ?_⟩
        rcases List.mem_cons.1 member with rfl | later
        · rw [holds] at other_holds
          cases other_holds
        · exact least other later other_holds
      · rintro ⟨member, own, least⟩
        rcases List.mem_cons.1 member with rfl | later
        · rw [holds] at own
          cases own
        · exact ⟨later, own, fun other member => least other (by simp [member])⟩

-- Where no item holds again once one fails, taking while is filtering.
theorem find?_takeWhile
    (closed : items.Pairwise fun first later => p later = true → p first = true) :
    (items.takeWhile p).find? q = items.find? fun item => p item && q item := by
  induction items with
  | nil => rfl
  | cons first items ih =>
    obtain ⟨below, closed⟩ := List.pairwise_cons.1 closed
    cases holds : p first with
    | true =>
      rw [List.takeWhile_cons_of_pos holds, List.find?_cons, List.find?_cons, ih closed, holds,
        Bool.true_and]
    | false =>
      rw [List.takeWhile_cons_of_neg (by simp [holds]), eq_comm, List.find?_nil, List.find?_eq_none]
      intro item member both
      simp only [Bool.and_eq_true] at both
      rcases List.mem_cons.1 member with rfl | later
      · simp [holds] at both
      · simp [below item later both.1] at holds

end

/-! ### Scans -/

section
variable {width : Nat} {distance : Occurrence → Nat} {p : Occurrence → Bool}
  {places : List Occurrence}

theorem metFrom_sublist (reached : Nat) :
    (metFrom width distance reached places).Sublist places := by
  induction places generalizing reached with
  | nil => exact .slnil
  | cons o places ih =>
    unfold metFrom
    split
    · exact (ih reached).cons o
    · exact (ih _).cons_cons o

-- The induction carries what the scan has passed over: nothing that is looked for.
theorem find?_metFrom (sorted : places.Pairwise (distance · < distance ·))
    (overlap : ∀ met ∈ places, ∀ o ∈ places, distance met < distance o →
      distance o < distance met + width → p o = false)
    (reached : Nat) (passed : ∀ o ∈ places, distance o < reached → p o = false) :
    (metFrom width distance reached places).find? p = places.find? p := by
  induction places generalizing reached with
  | nil => rfl
  | cons o places ih =>
    obtain ⟨above, sorted⟩ := List.pairwise_cons.1 sorted
    have rest := ih sorted fun met hmet o ho => overlap met (by simp [hmet]) o (by simp [ho])
    unfold metFrom
    split
    next early =>
      have skipped : p o = false := passed o (by simp) early
      rw [rest reached fun other member => passed other (by simp [member]),
        List.find?_cons_of_neg (by simp [skipped])]
    next =>
      rw [List.find?_cons, List.find?_cons, rest]
      intro other member near
      exact overlap o (by simp) other (by simp [member]) (above other member) near

end

/-! ### Places -/

theorem utf8Size_append (front back : List Char) :
    utf8Size (front ++ back) = utf8Size front + utf8Size back := by
  induction front with
  | nil => simp [utf8Size]
  | cons c front ih => simp [utf8Size, ih, Nat.add_assoc]

variable {word text : List Char}

theorem mem_occurrencesFrom_nil {passed : List Char} {o : Occurrence} :
    o ∈ occurrencesFrom word passed [] ↔ o.passed = passed ∧ [] = word ++ o.after := by
  obtain ⟨here, after⟩ := o
  unfold occurrencesFrom
  split
  next empty => simp [empty, eq_comm]
  next nonempty => simp [nonempty, eq_comm]

theorem mem_occurrencesFrom_cons {passed : List Char} {c : Char} {o : Occurrence} :
    o ∈ occurrencesFrom word passed (c :: text) ↔
      (o.passed = passed ∧ c :: text = word ++ o.after) ∨
        o ∈ occurrencesFrom word (c :: passed) text := by
  have here : ∀ back, c :: text = word ++ back →
      (o = ⟨passed, back⟩ ↔ o.passed = passed ∧ c :: text = word ++ o.after) := by
    intro back cut
    obtain ⟨here, after⟩ := o
    rw [cut]
    simp [eq_comm]
  rw [occurrencesFrom]
  split
  next stands =>
    obtain ⟨back, cut⟩ := List.isPrefixOf_iff_prefix.1 stands
    rw [List.mem_cons, ← here back cut.symm, ← cut, List.drop_left]
  next absent =>
    refine ⟨.inr, fun either => either.resolve_left ?_⟩
    rintro ⟨_, cut⟩
    exact absent (List.isPrefixOf_iff_prefix.2 ⟨_, cut.symm⟩)

theorem mem_occurrencesFrom {passed : List Char} {o : Occurrence} :
    o ∈ occurrencesFrom word passed text ↔
      ∃ between, o.passed = between.reverse ++ passed ∧ text = between ++ word ++ o.after := by
  induction text generalizing passed with
  | nil =>
    rw [mem_occurrencesFrom_nil]
    constructor
    · rintro ⟨same, cut⟩
      exact ⟨[], same, cut⟩
    · rintro ⟨between, same, cut⟩
      cases between with
      | nil => exact ⟨same, cut⟩
      | cons d between => cases cut
  | cons c text ih =>
    rw [mem_occurrencesFrom_cons, ih]
    constructor
    · rintro (⟨same, cut⟩ | ⟨between, same, cut⟩)
      · exact ⟨[], same, cut⟩
      · exact ⟨c :: between, by simp [same], congrArg (c :: ·) cut⟩
    · rintro ⟨between, same, cut⟩
      cases between with
      | nil => exact .inl ⟨same, cut⟩
      | cons d between =>
        obtain ⟨rfl, rest⟩ := List.cons.inj cut
        exact .inr ⟨between, by simpa using same, rest⟩

theorem mem_occurrences {o : Occurrence} :
    o ∈ occurrences word text ↔ text = o.before ++ word ++ o.after := by
  rw [occurrences, mem_occurrencesFrom]
  constructor
  · rintro ⟨between, same, cut⟩
    rw [Occurrence.before, same, List.append_nil, List.reverse_reverse]
    exact cut
  · intro cut
    exact ⟨o.before, by simp [Occurrence.before], cut⟩

-- Further to the right more has been passed.
theorem occurrencesFrom_passed (passed : List Char) :
    (occurrencesFrom word passed text).Pairwise fun first later =>
      ∃ c between, later.passed = between ++ c :: first.passed := by
  induction text generalizing passed with
  | nil =>
    unfold occurrencesFrom
    split
    · exact List.pairwise_singleton _ _
    · exact .nil
  | cons c text ih =>
    unfold occurrencesFrom
    split
    · refine List.pairwise_cons.2 ⟨fun later member => ?_, ih (c :: passed)⟩
      obtain ⟨between, same, _⟩ := mem_occurrencesFrom.1 member
      exact ⟨c, between.reverse, same⟩
    · exact ih (c :: passed)

theorem occurrences_sorted :
    (occurrences word text).Pairwise fun first later =>
      first.passed.length < later.passed.length := by
  apply (occurrencesFrom_passed []).imp
  intro first later further
  obtain ⟨c, between, same⟩ := further
  rw [same, List.length_append, List.length_cons]
  omega

-- Places further to the right have greater byte offsets.
theorem occurrences_offset :
    (occurrences word text).Pairwise fun first later => first.offset < later.offset := by
  apply (occurrencesFrom_passed []).imp
  intro first later further
  obtain ⟨c, between, same⟩ := further
  have := c.utf8Size_pos
  rw [Occurrence.offset, Occurrence.offset, same, utf8Size_append, utf8Size]
  omega

theorem occurrences_after :
    (occurrences word text).reverse.Pairwise fun later first =>
      later.after.length < first.after.length := by
  apply List.pairwise_reverse.2
  apply occurrences_sorted.imp_of_mem
  intro first later hfirst hlater further
  have left := congrArg List.length (mem_occurrences.1 hfirst)
  have right := congrArg List.length (mem_occurrences.1 hlater)
  simp only [Occurrence.before, List.length_append, List.length_reverse] at left right
  omega

/-! ### Places that overlap -/

theorem mem_of_covered {before after : List Char} {place : Nat} {c : Char}
    (cut : text = before ++ word ++ after) (is : text[place]? = some c)
    (reaches : before.length ≤ place) (within : place < before.length + word.length) :
    c ∈ word := by
  rw [cut, List.append_assoc, List.getElem?_append_right reaches,
    List.getElem?_append_left (by omega)] at is
  exact List.mem_of_getElem? is

section
variable (solid : ∀ c ∈ word, isSeparator c = false) {met o : Occurrence}
  (met_place : met ∈ occurrences word text) (place : o ∈ occurrences word text)
include solid met_place place

-- The character before the place belongs to the word that was met.
theorem not_bounded_of_met_before (begins : met.passed.length < o.passed.length)
    (ends : o.passed.length < met.passed.length + word.length) : ¬ o.Bounded := by
  rintro ⟨left, _⟩
  have met_cut := mem_occurrences.1 met_place
  have cut := mem_occurrences.1 place
  cases same : o.passed with
  | nil => simp [same] at begins
  | cons c passed =>
    have is : text[passed.length]? = some c := by
      rw [cut, Occurrence.before, same, List.reverse_cons]
      simp
    rw [same, List.length_cons] at begins ends
    have member : c ∈ word :=
      mem_of_covered met_cut is (by simp [Occurrence.before]; omega)
        (by simp [Occurrence.before]; omega)
    rw [same] at left
    simp [solid c member] at left

-- The character behind the place belongs to the word that was met.
theorem not_bounded_of_met_behind (begins : met.after.length < o.after.length)
    (ends : o.after.length < met.after.length + word.length) : ¬ o.Bounded := by
  rintro ⟨_, right⟩
  have met_cut := mem_occurrences.1 met_place
  have cut := mem_occurrences.1 place
  have total := congrArg List.length (met_cut.symm.trans cut)
  simp only [List.length_append] at total
  cases same : o.after with
  | nil => simp [same] at begins
  | cons c after =>
    have is : text[o.before.length + word.length]? = some c := by
      rw [cut, same, List.getElem?_append_right (by simp)]
      simp
    have member : c ∈ word := mem_of_covered met_cut is (by omega) (by omega)
    rw [same] at right
    simp [solid c member] at right

end

/-! ### Places across a separator -/

section
variable {front back before after : List Char} {c d : Char}
  (solid : ∀ c ∈ word, isSeparator c = false)
include solid

-- A separator belongs to no word, so a word that is set apart stands on one side of it.
theorem StandsApart.across (separator : isSeparator c = true)
    (apart : StandsApart word (front ++ c :: back) before after) :
    (∃ between, StandsApart word front before between) ∨
      ∃ between, before = front ++ c :: between ∧ StandsApart word back between after := by
  have outside : c ∉ word := fun member => by simp [solid c member] at separator
  obtain ⟨cut, left, right⟩ := apart
  rcases List.append_eq_append_iff.1 cut with ⟨rest, same, behind⟩ | ⟨rest, same, behind⟩
  · cases rest with
    | nil =>
      rw [List.append_nil] at same
      exact .inl ⟨[], by rw [same, List.append_nil], left, by simp⟩
    | cons d rest =>
      -- The separator does not come after the word, so it comes before it.
      obtain ⟨rfl, rfl⟩ := List.cons.inj behind
      rcases List.append_eq_append_iff.1 same with ⟨part, _, inside⟩ | ⟨part, rfl, inside⟩
      · exact absurd (by simp [inside]) outside
      · cases part with
        | nil =>
          have own : c :: rest = word := inside
          exact absurd (own ▸ List.mem_cons_self) outside
        | cons e part =>
          obtain ⟨rfl, rfl⟩ := List.cons.inj inside
          refine .inr ⟨part, rfl, rfl, ?_, right⟩
          intro d last
          apply left d
          rw [List.getLast?_append, List.getLast?_cons, Option.mem_def.1 last]
          rfl
  · refine .inl ⟨rest, same, left, ?_⟩
    intro d first
    apply right d
    rw [behind, List.head?_append, Option.mem_def.1 first]
    rfl

theorem StandsFirst.of_absent (begins : isSeparator c = true) (ends : isSeparator d = true)
    (absent : ∀ before after, ¬ StandsApart word front before after) :
    StandsFirst word (front ++ c :: (word ++ d :: back)) (front ++ [c]) (d :: back) := by
  refine ⟨⟨by simp, by simp [begins], by simp [ends]⟩, ?_⟩
  intro before after apart
  rcases apart.across solid begins with ⟨between, inFront⟩ | ⟨between, rfl, _⟩
  · exact absurd inFront (absent before between)
  · simp

theorem StandsLast.of_absent (begins : isSeparator c = true) (ends : isSeparator d = true)
    (absent : ∀ before after, ¬ StandsApart word back before after) :
    StandsLast word (front ++ c :: (word ++ d :: back)) (front ++ [c]) (d :: back) := by
  refine ⟨⟨by simp, by simp [begins], by simp [ends]⟩, ?_⟩
  intro before after apart
  have cut : front ++ c :: (word ++ d :: back) = (front ++ c :: word) ++ d :: back := by simp
  rw [cut] at apart
  rcases apart.across solid ends with ⟨between, inFront⟩ | ⟨between, _, inBack⟩
  · have := congrArg List.length inFront.1
    simp only [List.length_append, List.length_cons] at this
    simp only [List.length_append, List.length_singleton]
    omega
  · exact absurd inBack (absent between after)

end

/-! ### The scans are exact -/

theorem standsApart_iff {o : Occurrence} :
    StandsApart word text o.before o.after ↔ o ∈ occurrences word text ∧ o.Bounded := by
  rw [mem_occurrences, StandsApart, Occurrence.Bounded, Occurrence.before, List.getLast?_reverse]
  cases o.passed.head? <;> cases o.after.head? <;> simp

theorem firstBounded?_sound {o : Occurrence} (found : firstBounded? word text = some o) :
    o ∈ occurrences word text ∧ o.Bounded := by
  unfold firstBounded? at found
  split at found
  · cases found
  · have met := List.mem_of_find?_eq_some found
    exact ⟨(metFrom_sublist 0).subset met, by simpa using List.find?_some found⟩

theorem lastBounded?_sound {least : Nat} {o : Occurrence}
    (found : lastBounded? word text least = some o) :
    o ∈ occurrences word text ∧ o.Bounded ∧ least ≤ o.offset := by
  unfold lastBounded? at found
  split at found
  · cases found
  · have late := List.mem_of_find?_eq_some found
    have met := (metFrom_sublist 0).subset ((List.takeWhile_sublist _).subset late)
    have reached := List.all_eq_true.1 List.all_takeWhile o late
    exact ⟨List.mem_reverse.1 met, by simpa using List.find?_some found, by simpa using reached⟩

theorem firstBounded?_eq_find? (nonempty : word ≠ []) (solid : ∀ c ∈ word, isSeparator c = false) :
    firstBounded? word text = (occurrences word text).find? (·.Bounded) := by
  rw [firstBounded?, if_neg nonempty, metFromLeft]
  apply find?_metFrom occurrences_sorted
  · intro met met_place o place begins ends
    exact decide_eq_false (not_bounded_of_met_before solid met_place place begins ends)
  · intro o _ early
    cases early

theorem lastBounded?_eq_find? (nonempty : word ≠ []) (solid : ∀ c ∈ word, isSeparator c = false)
    (least : Nat) :
    lastBounded? word text least = (occurrences word text).reverse.find? fun o =>
      decide (least ≤ o.offset) && decide o.Bounded := by
  -- The scan may stop at the first place before `least`: all that follow are before it, too.
  have falling : (metFromRight word text).Pairwise fun first later =>
      decide (least ≤ later.offset) = true → decide (least ≤ first.offset) = true := by
    refine ((List.pairwise_reverse.2 occurrences_offset).imp ?_).sublist (metFrom_sublist 0)
    intro first later less
    simp only [decide_eq_true_eq]
    omega
  rw [lastBounded?, if_neg nonempty, find?_takeWhile falling, metFromRight]
  apply find?_metFrom occurrences_after
  · intro met met_place o place begins ends
    have loose := not_bounded_of_met_behind solid (List.mem_reverse.1 met_place)
      (List.mem_reverse.1 place) begins ends
    rw [decide_eq_false loose, Bool.and_false]
  · intro o _ early
    cases early

theorem length_occurrence {o : Occurrence} (place : o ∈ occurrences word text) :
    o.before.length + word.length + o.after.length = text.length := by
  rw [mem_occurrences.1 place, List.length_append, List.length_append]

theorem length_before (o : Occurrence) : o.before.length = o.passed.length := by
  rw [Occurrence.before, List.length_reverse]

-- A place where a word is set apart, as an occurrence.
theorem StandsApart.occurrence {before after : List Char}
    (apart : StandsApart word text before after) :
    ∃ o ∈ occurrences word text, o.Bounded ∧ o.before = before ∧ o.after = after := by
  have same : (Occurrence.mk before.reverse after).before = before := List.reverse_reverse before
  have place : StandsApart word text (Occurrence.mk before.reverse after).before after := by
    rwa [same]
  obtain ⟨member, bounded⟩ := standsApart_iff.1 place
  exact ⟨_, member, bounded, same, rfl⟩

section
variable (nonempty : word ≠ []) (solid : ∀ c ∈ word, isSeparator c = false)
include nonempty solid

theorem firstBounded?_eq_some_iff {o : Occurrence} :
    firstBounded? word text = some o ↔ StandsFirst word text o.before o.after := by
  rw [firstBounded?_eq_find? nonempty solid, find?_eq_some_iff_least occurrences_sorted,
    StandsFirst, standsApart_iff]
  simp only [decide_eq_true_eq]
  constructor
  · rintro ⟨place, bounded, least⟩
    refine ⟨⟨place, bounded⟩, fun before after apart => ?_⟩
    obtain ⟨other, other_place, other_bounded, rfl, rfl⟩ := apart.occurrence
    rw [length_before, length_before]
    exact least other other_place other_bounded
  · rintro ⟨⟨place, bounded⟩, least⟩
    refine ⟨place, bounded, fun other other_place other_bounded => ?_⟩
    have := least _ _ (standsApart_iff.2 ⟨other_place, other_bounded⟩)
    rwa [length_before, length_before] at this

theorem firstBounded?_eq_none_iff :
    firstBounded? word text = none ↔ ∀ before after, ¬ StandsApart word text before after := by
  rw [firstBounded?_eq_find? nonempty solid, List.find?_eq_none]
  simp only [decide_eq_true_eq]
  constructor
  · intro none before after apart
    obtain ⟨o, place, bounded, _⟩ := apart.occurrence
    exact none o place bounded
  · intro none o place bounded
    exact none _ _ (standsApart_iff.2 ⟨place, bounded⟩)

theorem lastBounded?_eq_some_iff {least : Nat} {o : Occurrence} :
    lastBounded? word text least = some o ↔
      StandsApart word text o.before o.after ∧ least ≤ o.offset ∧
        ∀ other : Occurrence, StandsApart word text other.before other.after →
          least ≤ other.offset → other.before.length ≤ o.before.length := by
  rw [lastBounded?_eq_find? nonempty solid, find?_eq_some_iff_least occurrences_after]
  simp only [Bool.and_eq_true, decide_eq_true_eq, standsApart_iff, List.mem_reverse]
  constructor
  · rintro ⟨place, ⟨late, bounded⟩, last⟩
    refine ⟨⟨place, bounded⟩, late, fun other ⟨other_place, other_bounded⟩ other_late => ?_⟩
    have := last other other_place ⟨other_late, other_bounded⟩
    have := length_occurrence place
    have := length_occurrence other_place
    omega
  · rintro ⟨⟨place, bounded⟩, late, last⟩
    -- What lies before a place and what lies after it add up to the same length everywhere.
    refine ⟨place, ⟨late, bounded⟩, fun other other_place ⟨other_late, other_bounded⟩ => ?_⟩
    have := last other ⟨other_place, other_bounded⟩ other_late
    have := length_occurrence place
    have := length_occurrence other_place
    omega

theorem lastBounded?_eq_none_iff {least : Nat} :
    lastBounded? word text least = none ↔
      ∀ o : Occurrence, StandsApart word text o.before o.after → o.offset < least := by
  rw [lastBounded?_eq_find? nonempty solid, List.find?_eq_none]
  simp only [Bool.and_eq_true, decide_eq_true_eq, standsApart_iff, List.mem_reverse]
  constructor
  · rintro none o ⟨place, bounded⟩
    exact Nat.lt_of_not_le fun late => none o place ⟨late, bounded⟩
  · rintro none o place ⟨late, bounded⟩
    exact Nat.not_lt_of_le late (none o ⟨place, bounded⟩)

theorem lastBounded?_zero_eq_some_iff {o : Occurrence} :
    lastBounded? word text 0 = some o ↔ StandsLast word text o.before o.after := by
  rw [lastBounded?_eq_some_iff nonempty solid, StandsLast]
  constructor
  · rintro ⟨apart, _, last⟩
    refine ⟨apart, fun before after other => ?_⟩
    obtain ⟨_, _, _, rfl, rfl⟩ := other.occurrence
    exact last _ other (Nat.zero_le _)
  · rintro ⟨apart, last⟩
    exact ⟨apart, Nat.zero_le _, fun other other_apart _ => last _ _ other_apart⟩

theorem StandsFirst.found {before after : List Char} (first : StandsFirst word text before after) :
    firstBounded? word text = some ⟨before.reverse, after⟩ := by
  apply (firstBounded?_eq_some_iff nonempty solid).2
  rwa [Occurrence.before, List.reverse_reverse]

theorem StandsLast.found {before after : List Char} (last : StandsLast word text before after) :
    lastBounded? word text 0 = some ⟨before.reverse, after⟩ := by
  apply (lastBounded?_zero_eq_some_iff nonempty solid).2
  rwa [Occurrence.before, List.reverse_reverse]

theorem lastBounded?_zero_eq_none_iff :
    lastBounded? word text 0 = none ↔ ∀ before after, ¬ StandsApart word text before after := by
  rw [lastBounded?_eq_none_iff nonempty solid]
  constructor
  · intro none before after apart
    obtain ⟨_, _, _, rfl, rfl⟩ := apart.occurrence
    exact Nat.not_lt_zero _ (none _ apart)
  · intro none o apart
    exact absurd apart (none _ _)

end

end UciProtocol.Text
