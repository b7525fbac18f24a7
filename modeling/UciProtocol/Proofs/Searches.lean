import UciProtocol.Proofs.Numerals
import UciProtocol.Proofs.Requests

/-! Orders to search, read from arguments and written as groups.

Each part of a search is read from the argument of one keyword and from no other. The groups that
state a search hold one for each part that is given, so their arguments give each part back.
-/

set_option autoImplicit false

namespace UciProtocol

open Text

/-! ### Limits -/

theorem Limit.keyword_injective : Function.Injective Limit.keyword := by
  intro first second same
  cases first <;> cases second <;> first | rfl | exact absurd same (by decide)

theorem Limit.mem_keywords (limit : Limit) : limit.keyword ∈ Command.go.keywords := by
  cases limit <;> decide

theorem Limit.keyword_ne (limit : Limit) :
    limit.keyword ≠ "infinite" ∧ limit.keyword ≠ "ponder" ∧ limit.keyword ≠ "searchmoves" := by
  cases limit <;> decide

theorem Limit.mem_all (limit : Limit) : limit ∈ Limit.all := by
  cases limit <;> decide

section
variable {α β ε : Type}

theorem bind_eq_ok_iff {first : Except ε α} {next : α → Except ε β} {result : β} :
    first >>= next = .ok result ↔ ∃ found, first = .ok found ∧ next found = .ok result := by
  cases first with
  | ok found =>
    constructor
    · intro rest
      exact ⟨found, rfl, rest⟩
    · rintro ⟨_, same, rest⟩
      cases same
      exact rest
  | error error =>
    constructor
    · intro failed
      cases failed
    · rintro ⟨_, same, _⟩
      cases same

end

-- Where a result is found step by step, all limits are found just if each of them is.
theorem Limits.build_eq_pure_iff {m : Type → Type} [Monad m]
    (pure_injective : ∀ {α : Type} {value other : α},
      (pure value : m α) = pure other → value = other)
    (bind_eq_pure_iff : ∀ {α β : Type} {first : m α} {next : α → m β} {result : β},
      first >>= next = pure result ↔ ∃ found, first = pure found ∧ next found = pure result)
    {find : Limit → m (Option Int32)} {limits : Limits} :
    Limits.build find = pure limits ↔ ∀ limit, find limit = pure (limits.get limit) := by
  unfold Limits.build
  simp only [bind_eq_pure_iff]
  constructor
  · rintro ⟨_, _, _, _, _, _, _, _, _, _, _, _, _, _, _, _, _, _, same⟩ limit
    cases pure_injective same
    cases limit <;> assumption
  · intro found
    exact ⟨_, found .wtime, _, found .btime, _, found .winc, _, found .binc, _, found .movestogo,
      _, found .depth, _, found .mate, _, found .nodes, _, found .movetime, rfl⟩

theorem Limits.build_eq_ok_iff {ε : Type} {find : Limit → Except ε (Option Int32)}
    {limits : Limits} :
    Limits.build find = .ok limits ↔ ∀ limit, find limit = .ok (limits.get limit) :=
  Limits.build_eq_pure_iff Except.ok.inj bind_eq_ok_iff

theorem Limits.build_eq_some_iff {find : Limit → Option (Option Int32)} {limits : Limits} :
    Limits.build find = some limits ↔ ∀ limit, find limit = some (limits.get limit) :=
  Limits.build_eq_pure_iff Option.some.inj Option.bind_eq_some_iff

namespace Search

/-! ### Arguments -/

variable {arguments : Arguments} {search : Search}

theorem isGiven_of_get? {keyword : String} {given : Bool}
    (stated : arguments.get? keyword = if given then some "" else none) :
    isGiven arguments keyword = .ok given := by
  rw [isGiven, stated]
  cases given <;> rfl

theorem limit?_of_get? {limit : Limit} {number : Option Int32}
    (stated : arguments.get? limit.keyword = number.map Numeral.writeInt32) :
    limit? arguments limit = .ok number := by
  rw [limit?, stated]
  cases number with
  | none => rfl
  | some n =>
    simp only [Option.map_some, number, Numeral.readInt32_writeInt32]
    rfl

-- Each part of a search is read by itself.
theorem ofArguments_eq_ok_iff :
    ofArguments arguments = .ok search ↔
      isGiven arguments "infinite" = .ok search.infinite ∧
      isGiven arguments "ponder" = .ok search.ponder ∧
      (∀ limit, limit? arguments limit = .ok (search.limits.get limit)) ∧
      search.searchMoves = tokens (arguments.value "searchmoves") := by
  unfold ofArguments
  simp only [bind_eq_ok_iff, Limits.build_eq_ok_iff]
  constructor
  · rintro ⟨_, infinite, _, ponder, _, limits, same⟩
    cases same
    exact ⟨infinite, ponder, limits, rfl⟩
  · rintro ⟨infinite, ponder, limits, moves⟩
    refine ⟨_, infinite, _, ponder, _, limits, ?_⟩
    rw [← moves]
    rfl

/-! ### Groups -/

def WellFormed (search : Search) : Prop := ∀ word ∈ search.searchMoves, Command.go.Takes word

instance (search : Search) : Decidable search.WellFormed :=
  inferInstanceAs (Decidable (∀ word ∈ _, _))

theorem mem_groups {group : Group} :
    group ∈ search.groups ↔
      (search.infinite = true ∧ group = ⟨"infinite", []⟩) ∨
      (search.ponder = true ∧ group = ⟨"ponder", []⟩) ∨
      (∃ limit n, search.limits.get limit = some n ∧
        ⟨limit.keyword, [Numeral.writeInt32 n]⟩ = group) ∨
      (search.searchMoves ≠ [] ∧ group = ⟨"searchmoves", search.searchMoves⟩) := by
  unfold groups
  simp only [List.mem_append, List.mem_filterMap, Limit.mem_all, true_and, Option.map_eq_some_iff,
    List.mem_ite_nil_right, List.mem_ite_nil_left, List.mem_singleton, or_assoc, ne_eq]

-- The groups come in the order of the keywords of `go`, each keyword at most once.
theorem groups_distinct (search : Search) : (search.groups.map Group.keyword).Nodup := by
  have order : Command.go.keywords =
      ["infinite"] ++ ["ponder"] ++ Limit.all.map Limit.keyword ++ ["searchmoves"] := rfl
  have limits : ((Limit.all.filterMap fun limit => (search.limits.get limit).map fun n =>
      (⟨limit.keyword, [Numeral.writeInt32 n]⟩ : Group)).map Group.keyword).Sublist
        (Limit.all.map Limit.keyword) := by
    induction Limit.all with
    | nil => exact .slnil
    | cons limit rest ih =>
      cases given : search.limits.get limit with
      | none => simpa [given] using ih.cons limit.keyword
      | some n => simpa [given] using ih.cons_cons limit.keyword
  have sorted : (search.groups.map Group.keyword).Sublist Command.go.keywords := by
    rw [order]
    unfold groups
    simp only [List.map_append]
    refine ((List.Sublist.append ?_ ?_).append limits).append ?_
    · cases search.infinite <;> simp
    · cases search.ponder <;> simp
    · split <;> simp
  exact sorted.nodup (by decide)

-- A number holds a digit, which no keyword does.
theorem writeInt32_takes (value : Int32) : Command.go.Takes (Numeral.writeInt32 value) := by
  obtain ⟨⟨digit, inside, isDigit⟩, signOrDigit⟩ := Numeral.writeInt32_digits value
  have plain : ∀ keyword ∈ Command.go.keywords, keyword.toList.any Char.isDigit = false := by
    decide
  refine ⟨⟨?_, ?_⟩, ?_⟩
  · intro empty
    rw [empty] at inside
    cases inside
  · intro c member
    rcases signOrDigit c member with rfl | other
    · decide
    · exact isBlank_of_isDigit other
  · intro keyword
    exact List.any_eq_false.1 (plain _ keyword) digit inside isDigit

theorem groups_written (formed : search.WellFormed) :
    ∀ group ∈ search.groups, group.Written .go := by
  intro group member
  rcases mem_groups.1 member with
    ⟨_, rfl⟩ | ⟨_, rfl⟩ | ⟨limit, n, _, rfl⟩ | ⟨_, rfl⟩
  · exact ⟨by decide, by simp⟩
  · exact ⟨by decide, by simp⟩
  · exact ⟨limit.mem_keywords, by simpa using writeInt32_takes n⟩
  · have keyed : "searchmoves" ∈ Command.go.keywords := by decide
    exact ⟨keyed, formed⟩

section
variable {groups : List Group} (same : groups.Perm search.groups)
include same

theorem get?_flag {keyword : String} {flag : Bool}
    (on : flag = true → ⟨keyword, []⟩ ∈ search.groups)
    (off : flag = false → ∀ group ∈ search.groups, group.keyword ≠ keyword) :
    (Arguments.ofGroups groups).get? keyword = if flag then some "" else none := by
  cases given : flag with
  | true => exact Arguments.get?_ofGroups_of_mem same search.groups_distinct (on given)
  | false => exact Arguments.get?_ofGroups_of_absent same (off given)

theorem get?_infinite :
    (Arguments.ofGroups groups).get? "infinite" = if search.infinite then some "" else none := by
  refine get?_flag same (fun given => mem_groups.2 (.inl ⟨given, rfl⟩)) fun off group member => ?_
  rcases mem_groups.1 member with ⟨own, _⟩ | ⟨_, rfl⟩ | ⟨limit, n, _, rfl⟩ | ⟨_, rfl⟩
  · simp [off] at own
  · simp
  · exact limit.keyword_ne.1
  · simp

theorem get?_ponder :
    (Arguments.ofGroups groups).get? "ponder" = if search.ponder then some "" else none := by
  refine get?_flag same (fun given => mem_groups.2 (.inr (.inl ⟨given, rfl⟩)))
    fun off group member => ?_
  rcases mem_groups.1 member with ⟨_, rfl⟩ | ⟨own, _⟩ | ⟨limit, n, _, rfl⟩ | ⟨_, rfl⟩
  · simp
  · simp [off] at own
  · exact limit.keyword_ne.2.1
  · simp

theorem get?_limit (limit : Limit) :
    (Arguments.ofGroups groups).get? limit.keyword =
      (search.limits.get limit).map Numeral.writeInt32 := by
  have ⟨infinite, ponder, searchMoves⟩ := limit.keyword_ne
  cases given : search.limits.get limit with
  | some n =>
    have stated : ⟨limit.keyword, [Numeral.writeInt32 n]⟩ ∈ search.groups :=
      mem_groups.2 (.inr (.inr (.inl ⟨limit, n, given, rfl⟩)))
    exact Arguments.get?_ofGroups_of_mem same search.groups_distinct stated
  | none =>
    apply Arguments.get?_ofGroups_of_absent same
    intro group member
    rcases mem_groups.1 member with ⟨_, rfl⟩ | ⟨_, rfl⟩ | ⟨other, n, own, rfl⟩ | ⟨_, rfl⟩
    · exact infinite.symm
    · exact ponder.symm
    · intro equal
      rw [Limit.keyword_injective equal, given] at own
      cases own
    · exact searchMoves.symm

theorem value_searchMoves :
    (Arguments.ofGroups groups).value "searchmoves" = " ".intercalate search.searchMoves := by
  by_cases empty : search.searchMoves = []
  · have none : (Arguments.ofGroups groups).get? "searchmoves" = none := by
      apply Arguments.get?_ofGroups_of_absent same
      intro group member
      rcases mem_groups.1 member with ⟨_, rfl⟩ | ⟨_, rfl⟩ | ⟨limit, n, _, rfl⟩ | ⟨given, _⟩
      · simp
      · simp
      · exact limit.keyword_ne.2.2
      · exact absurd empty given
    rw [Arguments.value, none, empty]
    rfl
  · have stated : ⟨"searchmoves", search.searchMoves⟩ ∈ search.groups :=
      mem_groups.2 (.inr (.inr (.inr ⟨empty, rfl⟩)))
    rw [Arguments.value, Arguments.get?_ofGroups_of_mem same search.groups_distinct stated]
    rfl

theorem ofArguments_ofGroups (formed : search.WellFormed) :
    ofArguments (.ofGroups groups) = .ok search := by
  refine ofArguments_eq_ok_iff.2 ⟨isGiven_of_get? (get?_infinite same),
    isGiven_of_get? (get?_ponder same), fun limit => limit?_of_get? (get?_limit same limit), ?_⟩
  rw [value_searchMoves same, tokens_intercalate fun word member => (formed word member).1]

end

end Search

end UciProtocol
