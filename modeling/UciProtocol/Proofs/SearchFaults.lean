import UciProtocol.Proofs.NumeralFaults
import UciProtocol.Proofs.Searches

/-! What is wrong with an order to search.

Each keyword of `go` that can be refused is checked by itself. Of several that are refused the first
counts, in an order that does not depend on the line; where none is, every part of the search is
read from its own keyword.
-/

set_option autoImplicit false

namespace UciProtocol

section
variable {α β ε : Type}

def errorOf? : Except ε α → Option ε
  | .error error => some error
  | .ok _ => none

theorem errorOf?_eq_some_iff {result : Except ε α} {error : ε} :
    errorOf? result = some error ↔ result = .error error := by
  cases result with
  | error cause => rw [errorOf?, Option.some.injEq, Except.error.injEq]
  | ok value => exact iff_of_false nofun nofun

theorem errorOf?_eq_none_iff {result : Except ε α} :
    errorOf? result = none ↔ ∃ value, result = .ok value := by
  cases result <;> simp [errorOf?]

theorem errorOf?_bind {first : Except ε α} {next : α → Except ε β} {later : Option ε}
    (rest : ∀ found, errorOf? (next found) = later) :
    errorOf? (first >>= next) = (errorOf? first).or later := by
  cases first with
  | error error => rfl
  | ok found => exact rest found

theorem errorOf?_bind_pure {first : Except ε α} {f : α → β} :
    errorOf? (do return f (← first)) = errorOf? first := by
  cases first <;> rfl

theorem findSome?_cons_or (f : α → Option β) (first : α) (rest : List α) :
    (first :: rest).findSome? f = (f first).or (rest.findSome? f) := by
  rw [List.findSome?_cons]
  cases f first <;> rfl

end

theorem Limits.errorOf?_build {ε : Type} (find : Limit → Except ε (Option Int32)) :
    errorOf? (Limits.build find) = Limit.all.findSome? fun limit => errorOf? (find limit) := by
  unfold Limits.build Limit.all
  simp only [findSome?_cons_or]
  refine errorOf?_bind fun _ => errorOf?_bind fun _ => errorOf?_bind fun _ => errorOf?_bind fun _ =>
    errorOf?_bind fun _ => errorOf?_bind fun _ => errorOf?_bind fun _ => errorOf?_bind fun _ =>
    errorOf?_bind fun _ => rfl

def Search.flags : List String := ["infinite", "ponder"]

theorem Limit.keyword_not_mem_flags (limit : Limit) : limit.keyword ∉ Search.flags := by
  cases limit <;> decide

namespace Search

open Text Numeral

/-- The keywords of `go` that are checked, in this order. -/
def checked : List String :=
  ["infinite", "ponder", "wtime", "btime", "winc", "binc", "movestogo", "depth", "mate", "nodes",
    "movetime"]

/-- A keyword is refused with an error: it takes no words and is given some, or it takes a number
and what it is given is none. -/
def Refuses (arguments : Arguments) (keyword : String) (error : RequestError) : Prop :=
  ∃ text, arguments.get? keyword = some text ∧
    if keyword ∈ flags then text ≠ "" ∧ error = .unexpectedToken text Command.go.name
    else Misnumbered keyword text error

/-- A search is what arguments say: each part is given just if its keyword is, and a number is the
one that its own keyword has. -/
structure StatedBy (arguments : Arguments) (search : Search) : Prop where
  infinite : arguments.get? "infinite" = if search.infinite then some "" else none
  ponder : arguments.get? "ponder" = if search.ponder then some "" else none
  searchMoves : search.searchMoves = (arguments.get? "searchmoves").elim [] tokens
  limits : ∀ limit : Limit,
    (arguments.get? limit.keyword = none ∧ search.limits.get limit = none) ∨
      ∃ text n, arguments.get? limit.keyword = some text ∧ search.limits.get limit = some n ∧
        Writes text.toList n.toInt

variable {arguments : Arguments} {search : Search} {keyword : String} {error : RequestError}

/-! ### One keyword -/

def refusal? (arguments : Arguments) (keyword : String) : Option RequestError :=
  (arguments.get? keyword).bind fun text =>
    if keyword ∈ flags then
      if text = "" then none else some (.unexpectedToken text Command.go.name)
    else errorOf? (number keyword text)

theorem refusal?_eq_some_iff :
    refusal? arguments keyword = some error ↔ Refuses arguments keyword error := by
  unfold refusal? Refuses
  rw [Option.bind_eq_some_iff]
  refine exists_congr fun text => and_congr_right fun _ => ?_
  by_cases flag : keyword ∈ flags
  · rw [if_pos flag, if_pos flag]
    by_cases empty : text = ""
    · simp [empty]
    · simp [empty, eq_comm]
  · rw [if_neg flag, if_neg flag, errorOf?_eq_some_iff, number_eq_error_iff]

theorem refusal?_eq_none_iff :
    refusal? arguments keyword = none ↔ ∀ cause, ¬ Refuses arguments keyword cause := by
  simp only [Option.eq_none_iff_forall_ne_some, ne_eq, refusal?_eq_some_iff]

theorem errorOf?_isGiven (flag : keyword ∈ flags) :
    errorOf? (isGiven arguments keyword) = refusal? arguments keyword := by
  unfold isGiven refusal?
  cases arguments.get? keyword with
  | none => rfl
  | some text =>
    rw [Option.bind_some, if_pos flag]
    dsimp only
    split <;> rfl

theorem errorOf?_limit? (limit : Limit) :
    errorOf? (limit? arguments limit) = refusal? arguments limit.keyword := by
  unfold limit? refusal?
  cases arguments.get? limit.keyword with
  | none => rfl
  | some text =>
    rw [Option.bind_some, if_neg limit.keyword_not_mem_flags]
    dsimp only
    cases Search.number limit.keyword text <;> rfl

theorem refusal?_flag_eq_none_iff (flag : keyword ∈ flags) :
    refusal? arguments keyword = none ↔ ∀ text ∈ arguments.get? keyword, text = "" := by
  unfold refusal?
  simp [flag]

theorem refusal?_limit_eq_none_iff {limit : Limit} :
    refusal? arguments limit.keyword = none ↔
      ∀ text ∈ arguments.get? limit.keyword, ∃ n : Int32, Writes text.toList n.toInt := by
  unfold refusal?
  simp only [Option.bind_eq_none_iff, limit.keyword_not_mem_flags, if_false, errorOf?_eq_none_iff,
    number_eq_ok_iff, ← readInt32_eq_ok_iff, readInt32_eq_ok_iff_writes, Option.mem_def]

theorem isGiven_eq_ok_iff {given : Bool} :
    isGiven arguments keyword = .ok given ↔
      arguments.get? keyword = if given then some "" else none := by
  refine ⟨fun read => ?_, isGiven_of_get?⟩
  unfold isGiven at read
  split at read
  next absent =>
    cases read
    exact absent
  next stated =>
    split at read
    next empty =>
      cases read
      rwa [empty] at stated
    next => cases read

theorem limit?_eq_ok_iff {limit : Limit} {found : Option Int32} :
    limit? arguments limit = .ok found ↔
      (arguments.get? limit.keyword = none ∧ found = none) ∨
        ∃ text n, arguments.get? limit.keyword = some text ∧ found = some n ∧
          Writes text.toList n.toInt := by
  unfold limit?
  cases arguments.get? limit.keyword with
  | none => simp [eq_comm]
  | some text =>
    dsimp only
    rw [map_eq_ok_iff]
    simp only [number_eq_ok_iff, ← readInt32_eq_ok_iff, readInt32_eq_ok_iff_writes]
    constructor
    · rintro ⟨n, writes, rfl⟩
      exact .inr ⟨text, n, rfl, rfl, writes⟩
    · rintro (⟨absent, -⟩ | ⟨_, n, same, rfl, writes⟩)
      · cases absent
      · cases same
        exact ⟨n, writes, rfl⟩

/-! ### All keywords -/

theorem errorOf?_ofArguments (arguments : Arguments) :
    errorOf? (ofArguments arguments) = checked.findSome? (refusal? arguments) := by
  have order : checked = "infinite" :: "ponder" :: Limit.all.map Limit.keyword := rfl
  have limits : errorOf? (Limits.build (limit? arguments)) =
      (Limit.all.map Limit.keyword).findSome? (refusal? arguments) := by
    rw [Limits.errorOf?_build, List.findSome?_map]
    exact congrArg (List.findSome? · Limit.all) (funext errorOf?_limit?)
  rw [order, findSome?_cons_or, findSome?_cons_or, ← limits, ← errorOf?_isGiven (by decide),
    ← errorOf?_isGiven (by decide)]
  unfold ofArguments
  refine errorOf?_bind fun _ => errorOf?_bind fun _ => ?_
  exact errorOf?_bind_pure

/-- The error is that of the first keyword that is refused. -/
theorem ofArguments_eq_error_iff :
    ofArguments arguments = .error error ↔
      ∃ front keyword back, checked = front ++ keyword :: back ∧
        Refuses arguments keyword error ∧
        ∀ earlier ∈ front, ∀ cause, ¬ Refuses arguments earlier cause := by
  rw [← errorOf?_eq_some_iff, errorOf?_ofArguments, List.findSome?_eq_some_iff]
  simp only [refusal?_eq_some_iff, refusal?_eq_none_iff]

theorem ofArguments_eq_ok_iff_statedBy :
    ofArguments arguments = .ok search ↔ StatedBy arguments search := by
  have moves : tokens (arguments.value "searchmoves") =
      (arguments.get? "searchmoves").elim [] tokens := by
    rw [Arguments.value]
    cases arguments.get? "searchmoves" <;> rfl
  rw [ofArguments_eq_ok_iff, isGiven_eq_ok_iff, isGiven_eq_ok_iff, moves]
  simp only [limit?_eq_ok_iff]
  constructor
  · rintro ⟨infinite, ponder, limits, moves⟩
    exact ⟨infinite, ponder, moves, limits⟩
  · rintro ⟨infinite, ponder, moves, limits⟩
    exact ⟨infinite, ponder, limits, moves⟩

theorem exists_ofArguments_iff :
    (∃ search, ofArguments arguments = .ok search) ↔
      (∀ keyword ∈ flags, ∀ text ∈ arguments.get? keyword, text = "") ∧
        ∀ limit : Limit, ∀ text ∈ arguments.get? limit.keyword,
          ∃ n : Int32, Writes text.toList n.toInt := by
  have order : checked = flags ++ Limit.all.map Limit.keyword := rfl
  rw [← errorOf?_eq_none_iff, errorOf?_ofArguments, order, List.findSome?_eq_none_iff,
    List.forall_mem_append, List.forall_mem_map]
  simp only [refusal?_limit_eq_none_iff, Limit.mem_all, forall_const]
  exact and_congr_left fun _ => forall₂_congr fun _ => refusal?_flag_eq_none_iff

-- Only what the keywords of `go` are given counts.
theorem ofArguments_congr {others : Arguments}
    (same : ∀ keyword ∈ Command.go.keywords, others.get? keyword = arguments.get? keyword) :
    ofArguments others = ofArguments arguments := by
  have flag (keyword : String) (member : keyword ∈ Command.go.keywords) :
      isGiven others keyword = isGiven arguments keyword := by
    rw [isGiven, isGiven, same keyword member]
  have limit : limit? others = limit? arguments := by
    funext limit
    rw [limit?, limit?, same limit.keyword limit.mem_keywords]
  have moves : others.value "searchmoves" = arguments.value "searchmoves" := by
    rw [Arguments.value, Arguments.value, same "searchmoves" (by decide)]
  rw [ofArguments, ofArguments, flag "infinite" (by decide), flag "ponder" (by decide), limit,
    moves]

end Search

/-! ### Lines -/

-- Two lines that give the same words to each keyword of `go` where it stands last.
theorem Request.ofLine_go_congr {line other : String} {words others : List String}
    (first : Text.tokens line = Command.go.name :: words)
    (second : Text.tokens other = Command.go.name :: others)
    (keyed : ∀ word ∈ words.head?, word ∈ Command.go.keywords)
    (otherKeyed : ∀ word ∈ others.head?, word ∈ Command.go.keywords)
    (same : ∀ keyword ∈ Command.go.keywords, ∀ given,
      Group.GivenLast Command.go.keywords words keyword given ↔
        Group.GivenLast Command.go.keywords others keyword given) :
    Request.ofLine line = Request.ofLine other := by
  have grouped : Command.go ≠ .setOption := by decide
  rw [Request.ofLine, Request.ofLine, Invocation.ofLine_groups grouped first keyed,
    Invocation.ofLine_groups grouped second otherKeyed]
  refine congrArg (fun read => (read.map Request.go).map some) (Search.ofArguments_congr ?_)
  intro keyword member
  apply Option.ext
  intro value
  rw [Invocation.get?_split_groups, Invocation.get?_split_groups]
  simp only [same keyword member]

/-- How the arguments of `go` are checked. A search is read just where each flag is given without
words and each number is one, and is then what the arguments say; otherwise the error is that of the
first keyword that is refused. Nothing counts but what the keywords of `go` are given, and on a line
only what they are given where they stand last. -/
theorem Search.first_refused_keyword_counts :
    (∀ arguments,
      (∀ search, ofArguments arguments = .ok search ↔ StatedBy arguments search) ∧
      ((∃ search, ofArguments arguments = .ok search) ↔
        (∀ keyword ∈ flags, ∀ text ∈ arguments.get? keyword, text = "") ∧
          ∀ limit : Limit, ∀ text ∈ arguments.get? limit.keyword,
            ∃ n : Int32, Numeral.Writes text.toList n.toInt) ∧
      (∀ error, ofArguments arguments = .error error ↔
        ∃ front keyword back, checked = front ++ keyword :: back ∧
          Refuses arguments keyword error ∧
          ∀ earlier ∈ front, ∀ cause, ¬ Refuses arguments earlier cause) ∧
      ∀ others : Arguments,
        (∀ keyword ∈ Command.go.keywords, others.get? keyword = arguments.get? keyword) →
          ofArguments others = ofArguments arguments) ∧
    ∀ line other words others, Text.tokens line = Command.go.name :: words →
      Text.tokens other = Command.go.name :: others →
      (∀ word ∈ words.head?, word ∈ Command.go.keywords) →
      (∀ word ∈ others.head?, word ∈ Command.go.keywords) →
      (∀ keyword ∈ Command.go.keywords, ∀ given,
        Group.GivenLast Command.go.keywords words keyword given ↔
          Group.GivenLast Command.go.keywords others keyword given) →
      Request.ofLine line = Request.ofLine other :=
  ⟨fun _ => ⟨fun _ => ofArguments_eq_ok_iff_statedBy, exists_ofArguments_iff,
      fun _ => ofArguments_eq_error_iff, fun _ => ofArguments_congr⟩,
    fun _ _ _ _ => Request.ofLine_go_congr⟩

/-- The time is out of range and the depth is no number: the time is refused, in whatever order they
are given, and an earlier depth does not matter. -/
theorem Search.refuses_time_before_depth :
    Request.ofLine "go depth 6 infinite depth x wtime 99999999999" =
        .error (.numberOutOfRange "99999999999") ∧
      Request.ofLine "go wtime 99999999999 depth x infinite" =
        .error (.numberOutOfRange "99999999999") ∧
      ofArguments ⟨[("depth", "x"), ("wtime", "99999999999"), ("nowhere", "y")], by decide⟩ =
        .error (.numberOutOfRange "99999999999") := by
  have first : Request.ofLine "go depth 6 infinite depth x wtime 99999999999" =
      .error (.numberOutOfRange "99999999999") := by decide
  obtain ⟨checks, lines⟩ := first_refused_keyword_counts
  have same := lines "go depth 6 infinite depth x wtime 99999999999"
    "go wtime 99999999999 depth x infinite"
    ["depth", "6", "infinite", "depth", "x", "wtime", "99999999999"]
    ["wtime", "99999999999", "depth", "x", "infinite"] (by decide) (by decide) (by decide)
    (by decide) <| by
      intro keyword keyed given
      rw [← Group.last?_split keyed, ← Group.last?_split keyed]
      have last : ∀ keyword ∈ Command.go.keywords,
          Group.last? keyword (Group.split (Command.go.keywords.contains ·)
              ["depth", "6", "infinite", "depth", "x", "wtime", "99999999999"]).2 =
            Group.last? keyword (Group.split (Command.go.keywords.contains ·)
              ["wtime", "99999999999", "depth", "x", "infinite"]).2 := by decide
      rw [last keyword keyed]
  obtain ⟨-, -, -, congr⟩ := checks ⟨[("depth", "x"), ("wtime", "99999999999")], by decide⟩
  have other := congr
    ⟨[("depth", "x"), ("wtime", "99999999999"), ("nowhere", "y")], by decide⟩ (by decide)
  exact ⟨first, same ▸ first, other.trans (by decide)⟩

end UciProtocol
