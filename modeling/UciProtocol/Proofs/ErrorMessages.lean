import UciProtocol.Proofs.Assignments
import UciProtocol.Proofs.DecodedLines
import UciProtocol.Proofs.Failures
import UciProtocol.Proofs.IdleInputs
import UciProtocol.Proofs.ReportFigures
import UciProtocol.Proofs.WrittenRequests

/-! What is said of a line that fails.

A message is made of fixed words, numbers and texts. The texts are parts of the line or names of
settings, so a message has no line feed in it if these have none, whatever is wrong with the line.
-/

set_option autoImplicit false

namespace UciProtocol

open Text

/-! ### The texts of a message -/

def RequestError.texts : RequestError → List String
  | unknownCommand command line => [command, line]
  | unexpectedToken token command => [token, command]
  | emptyContext name => [name]
  | missingNumber keyword => [keyword]
  | invalidNumber value | numberOutOfRange value => [value]
  | expectedName | missingValue | emptyOptionName | emptyOptionValue | positionBase => []

def Setting.Error.texts : Setting.Error → List String
  | unknown name => [name]
  | invalidValue name value => [name, value]
  | outOfRange name _ _ _ => [name]

def Engine.Refusal.texts : Engine.Refusal → List String
  | invalidFen fen => [fen]
  | invalidMove text => [text]
  | notReady cause => [cause]

def LineError.texts : LineError → List String
  | request error => error.texts
  | setting error => error.texts
  | engine refusal => refusal.texts

theorem RequestError.unbroken_message {error : RequestError}
    (unbroken : ∀ text ∈ error.texts, Unbroken text) : Unbroken error.message := by
  cases error with
  | unknownCommand command line =>
    obtain ⟨first, second⟩ : Unbroken command ∧ Unbroken line := by simpa [texts] using unbroken
    exact (((Unbroken.append (by decide) first).append (by decide)).append second).append
      (by decide)
  | unexpectedToken token command =>
    obtain ⟨first, second⟩ : Unbroken token ∧ Unbroken command := by simpa [texts] using unbroken
    exact ((Unbroken.append (by decide) first).append (by decide)).append second
  | emptyContext name =>
    have named := List.forall_mem_singleton.1 unbroken
    exact (Unbroken.append (by decide) named).append (by decide)
  | missingNumber text | invalidNumber text | numberOutOfRange text =>
    exact Unbroken.append (by decide) (List.forall_mem_singleton.1 unbroken)
  | expectedName | missingValue | emptyOptionName | emptyOptionValue | positionBase => decide

theorem Setting.Error.unbroken_message {error : Setting.Error}
    (unbroken : ∀ text ∈ error.texts, Unbroken text) : Unbroken error.message := by
  cases error with
  | unknown name =>
    have named := List.forall_mem_singleton.1 unbroken
    exact (Unbroken.append (by decide) named).append (by decide)
  | invalidValue name value =>
    obtain ⟨first, second⟩ : Unbroken name ∧ Unbroken value := by simpa [texts] using unbroken
    exact (((Unbroken.append (by decide) second).append (by decide)).append first).append
      (by decide)
  | outOfRange name value least greatest =>
    have named := List.forall_mem_singleton.1 unbroken
    have number (n : Int64) : Unbroken (Numeral.writeInt64 n) := (whole_int_repr _).unbroken
    exact ((((Unbroken.append (by decide) (number value)).append (by decide)).append named).append
      (by decide)).append (((number least).append (by decide)).append (number greatest))

theorem Engine.Refusal.unbroken_message {refusal : Engine.Refusal}
    (unbroken : ∀ text ∈ refusal.texts, Unbroken text) : Unbroken refusal.message := by
  cases refusal with
  | invalidFen text | notReady text =>
    exact Unbroken.append (by decide) (List.forall_mem_singleton.1 unbroken)
  | invalidMove text =>
    exact (Unbroken.append (by decide) (List.forall_mem_singleton.1 unbroken)).append (by decide)

theorem LineError.unbroken_message {error : LineError}
    (unbroken : ∀ text ∈ error.texts, Unbroken text) : Unbroken error.message := by
  cases error with
  | request error => exact RequestError.unbroken_message unbroken
  | setting error => exact Setting.Error.unbroken_message unbroken
  | engine refusal => exact Engine.Refusal.unbroken_message unbroken

/-! ### The texts of a request -/

def Engine.Order.texts : Engine.Order → List String
  | setPosition fen moves => fen :: moves
  | go search => search.searchMoves
  | getReady | newGame => []

def Assignment.texts (assignment : Assignment) : List String :=
  [assignment.name, assignment.value, assignment.context]

def Request.texts : Request → List String
  | setOption assignment => assignment.texts
  | position stated => stated.fen :: stated.moves
  | go search => search.searchMoves
  | uci | isReady | newGame | stop | ponderHit | quit | xyzzy => []

namespace Text

theorem trim_subset (text : List Char) : trim text ⊆ text :=
  List.Subset.trans (dropTail_subset _ _) (List.dropWhile_sublist _).subset

theorem afterFirstWord_subset (text : List Char) : afterFirstWord text ⊆ text :=
  ((List.dropWhile_sublist _).trans (List.dropWhile_sublist _)).subset

theorem StandsApart.subset {word text before after : List Char}
    (apart : StandsApart word text before after) : before ⊆ text ∧ after ⊆ text := by
  obtain ⟨rfl, -, -⟩ := apart
  constructor <;>
    · intro c member
      simp [member]

end Text

namespace Assignment

variable {text : List Char} {line : String} (unbroken : Unbroken line) (inside : text ⊆ line.toList)

theorem Opened.subset {name rest : List Char} (opened : Opened text name rest) :
    name ⊆ text ∧ rest ⊆ text := by
  obtain ⟨behind, ⟨c, later, begins, -, rfl⟩, first, -⟩ := opened
  have whole : trim later ⊆ text := by
    intro d member
    apply trim_subset text
    rw [begins]
    simp [trim_subset later member]
  exact ⟨List.Subset.trans first.subset.1 whole, List.Subset.trans first.subset.2 whole⟩

include unbroken inside

-- What an assignment is made of, and what is named where there is none, are parts of the text.
theorem unbroken_of_reading {result : Except RequestError Assignment}
    (reading : Reading text result) :
    match result with
    | .ok assignment => ∀ part ∈ assignment.texts, Unbroken part
    | .error error => ∀ part ∈ error.texts, Unbroken part := by
  have piece {part : List Char} (within : part ⊆ text) : Unbroken (String.ofList (trim part)) :=
    unbroken_ofList unbroken
      (List.Subset.trans (trim_subset part) (List.Subset.trans within inside))
  cases reading with
  | expectedName | missingValue | emptyName | emptyInContext | emptyEverywhere =>
    exact List.forall_mem_nil _
  | emptyContext opened => exact List.forall_mem_singleton.2 (piece opened.subset.1)
  | inContext opened _ last =>
    have behind := List.Subset.trans (trim_subset _) opened.subset.2
    simp only [texts, List.forall_mem_cons]
    exact ⟨piece opened.subset.1, piece (List.Subset.trans last.1.subset.1 behind),
      piece (List.Subset.trans last.1.subset.2 behind), List.forall_mem_nil _⟩
  | everywhere opened =>
    simp only [texts, List.forall_mem_cons]
    exact ⟨piece opened.subset.1, piece opened.subset.2, by decide, List.forall_mem_nil _⟩

end Assignment

/-! ### Requests -/

section
variable {α β ε : Type}

theorem bind_eq_error_iff {first : Except ε α} {next : α → Except ε β} {error : ε} :
    first >>= next = .error error ↔
      first = .error error ∨ ∃ found, first = .ok found ∧ next found = .error error := by
  cases first with
  | ok found =>
    constructor
    · intro failed
      exact .inr ⟨found, rfl, failed⟩
    · rintro (failed | ⟨_, same, failed⟩)
      · cases failed
      · cases same
        exact failed
  | error cause =>
    constructor
    · intro failed
      cases failed
      exact .inl rfl
    · rintro (failed | ⟨_, same, _⟩)
      · cases failed
        rfl
      · cases same

end

theorem Limits.exists_of_build_error {ε : Type} {find : Limit → Except ε (Option Int32)}
    {error : ε} (failed : Limits.build find = .error error) :
    ∃ limit, find limit = .error error := by
  by_contra none
  have found (limit : Limit) : ¬ find limit = .error error := fun same => none ⟨limit, same⟩
  unfold Limits.build at failed
  simp only [bind_eq_error_iff, found, false_or] at failed
  obtain ⟨_, _, _, _, _, _, _, _, _, _, _, _, _, _, _, _, _, _, last⟩ := failed
  cases last

namespace Search

variable {arguments : Arguments} {error : RequestError}

/-- The text belongs to the command, or is the value of a keyword. -/
def Mentions (arguments : Arguments) (text : String) : Prop :=
  text = Command.go.name ∨ text ∈ Command.go.keywords ∨
    ∃ keyword, arguments.get? keyword = some text

theorem mentions_of_isGiven_error {keyword : String}
    (failed : isGiven arguments keyword = .error error) :
    ∀ text ∈ error.texts, Mentions arguments text := by
  unfold isGiven at failed
  split at failed
  · cases failed
  next value stated =>
    split at failed
    · cases failed
    · cases failed
      simp only [RequestError.texts, List.forall_mem_cons]
      exact ⟨.inr (.inr ⟨keyword, stated⟩), .inl rfl, List.forall_mem_nil _⟩

theorem mentions_of_limit?_error {limit : Limit} (failed : limit? arguments limit = .error error) :
    ∀ text ∈ error.texts, Mentions arguments text := by
  unfold limit? at failed
  split at failed
  · cases failed
  next value stated =>
    have own : Mentions arguments value := .inr (.inr ⟨limit.keyword, stated⟩)
    have wrong := map_eq_error_iff.1 failed
    unfold number at wrong
    cases read : Numeral.readInt32 value with
    | ok n =>
      rw [read] at wrong
      cases wrong
    | error fault =>
      rw [read] at wrong
      cases fault with
      | empty =>
        cases wrong
        exact List.forall_mem_singleton.2 (.inr (.inl limit.mem_keywords))
      | invalidDigit | overflow =>
        cases wrong
        exact List.forall_mem_singleton.2 own

theorem mentions_of_error (failed : ofArguments arguments = .error error) :
    ∀ text ∈ error.texts, Mentions arguments text := by
  unfold ofArguments at failed
  simp only [bind_eq_error_iff] at failed
  rcases failed with infinite | ⟨_, _, ponder | ⟨_, _, limits | ⟨_, _, last⟩⟩⟩
  · exact mentions_of_isGiven_error infinite
  · exact mentions_of_isGiven_error ponder
  · obtain ⟨limit, limits⟩ := Limits.exists_of_build_error limits
    exact mentions_of_limit?_error limits
  · cases last

end Search

namespace Request

variable {line : String} (unbroken : Unbroken line)
include unbroken

theorem unbroken_of_invocation_error {error : RequestError}
    (failed : Invocation.ofLine line = .error error) : ∀ text ∈ error.texts, Unbroken text := by
  have inside := afterFirstWord_subset line.toList
  rcases Invocation.first_word_cases line with
    blank | ⟨name, words, first, unknown⟩ | ⟨command, words, first⟩
  · rw [Invocation.ofLine_blank blank] at failed
    cases failed
  · rw [Invocation.ofLine_unknown first unknown] at failed
    cases failed
    have word : IsWord name := isWord_of_mem_tokens (first ▸ List.mem_cons_self)
    simp only [RequestError.texts, List.forall_mem_cons]
    exact ⟨unbroken_of_isWord word, unbroken, List.forall_mem_nil _⟩
  · by_cases other : command = .setOption
    · subst other
      rw [Invocation.ofLine_setOption first] at failed
      have reading := Assignment.read_eq_iff_reading.1 (map_eq_error_iff.1 failed)
      exact Assignment.unbroken_of_reading unbroken inside reading
    · rw [Invocation.ofLine_command other first] at failed
      obtain ⟨word, stray, -, rfl⟩ :=
        (Invocation.ofTokens_eq_error_iff (Invocation.solid_of_tokens first)).1
          (map_eq_error_iff.1 failed)
      have member : word ∈ tokens line :=
        first ▸ List.mem_cons_of_mem _ (List.mem_of_head? stray)
      simp only [RequestError.texts, List.forall_mem_cons]
      exact ⟨unbroken_of_isWord (isWord_of_mem_tokens member),
        unbroken_of_isWord command.isWord_name, List.forall_mem_nil _⟩

theorem unbroken_of_error {error : RequestError} (failed : ofLine line = .error error) :
    ∀ text ∈ error.texts, Unbroken text := by
  cases read : Invocation.ofLine line with
  | error cause =>
    rw [ofLine, read] at failed
    cases failed
    exact unbroken_of_invocation_error unbroken read
  | ok found =>
    rw [ofLine, read] at failed
    cases found with
    | none => cases failed
    | some invocation =>
      have unmade : ofInvocation invocation = .error error := map_eq_error_iff.1 failed
      obtain ⟨command, arguments⟩ := invocation
      cases command with
      | uci | isReady | newGame | stop | ponderHit | quit | xyzzy => cases unmade
      | setOption =>
        have wrong := map_eq_error_iff.1 unmade
        unfold Assignment.ofArguments at wrong
        dsimp only at wrong
        split at wrong
        · cases wrong
          exact List.forall_mem_nil _
        · split at wrong <;> cases wrong
          exact List.forall_mem_nil _
      | position =>
        have wrong := map_eq_error_iff.1 unmade
        unfold Position.ofArguments at wrong
        split at wrong <;> cases wrong
        exact List.forall_mem_nil _
      | go =>
        have mentions := Search.mentions_of_error (map_eq_error_iff.1 unmade)
        intro text member
        rcases mentions text member with rfl | keyword | ⟨keyword, stated⟩
        · decide
        · exact unbroken_of_isWord (Command.isWord_of_mem_keywords keyword)
        · obtain ⟨words, rfl, takes⟩ := Invocation.value_words read (by simp) stated
          exact unbroken_intercalate fun word given => unbroken_of_isWord (takes word given).1

theorem unbroken_of_request {request : Request} (read : ofLine line = .ok (some request)) :
    ∀ text ∈ request.texts, Unbroken text := by
  cases request with
  | uci | isReady | newGame | stop | ponderHit | quit | xyzzy => exact List.forall_mem_nil _
  | setOption assignment =>
    obtain ⟨invocation, invoked, made⟩ := ofLine_eq_some read
    have command : Command.setOption = invocation.command := command_of_ofInvocation made
    obtain ⟨words, first, -⟩ := Invocation.ofLine_first_word invoked
    rw [← command] at first
    rw [Assignment.ofLine_of_setOption first] at read
    obtain ⟨_, accepted, same⟩ := map_eq_ok_iff.1 read
    cases same
    exact Assignment.unbroken_of_reading unbroken (afterFirstWord_subset _)
      (Assignment.read_eq_iff_reading.1 accepted)
  | position stated =>
    obtain ⟨based, moved⟩ := wellFormed_of_position read
    simp only [texts, List.forall_mem_cons]
    refine ⟨?_, fun move member => unbroken_of_isWord (moved move member).1⟩
    obtain ⟨base, moves⟩ := stated
    cases base with
    | startPosition => exact (by decide : Unbroken startFen)
    | fen text =>
      rw [Position.fen, Position.Base.text, ← Position.intercalate_pieces text]
      exact unbroken_intercalate fun word member => unbroken_of_isWord (based.2 word member).1
  | go search =>
    exact fun move member => unbroken_of_isWord (wellFormed_of_go read move member).1

end Request

/-! ### Settings and orders -/

theorem Setting.texts_of_read_error {setting : Setting} {value : String} {error : Setting.Error}
    (failed : setting.read value = .error error) :
    ∀ text ∈ error.texts, text = setting.name ∨ text = value := by
  have invalid : ∀ text ∈ (Error.invalidValue setting.name value).texts,
      text = setting.name ∨ text = value := by simp [Error.texts]
  obtain ⟨name, kind⟩ := setting
  cases kind with
  | check default =>
    simp only [read] at failed
    split at failed
    · cases failed
    · split at failed <;> cases failed
      exact invalid
  | spin default least greatest =>
    simp only [read] at failed
    split at failed
    · cases failed
      exact invalid
    · split at failed <;> cases failed
      exact List.forall_mem_singleton.2 (.inl rfl)
  | combo default choices =>
    simp only [read] at failed
    split at failed <;> cases failed
    exact invalid
  | string default => cases failed

theorem Settings.texts_of_change_error {settings : Settings} {assignment : Assignment}
    {error : Setting.Error} (failed : settings.change assignment = .error error) :
    ∀ text ∈ error.texts,
      text ∈ assignment.texts ∨ ∃ setting ∈ settings.declared, text = setting.name := by
  unfold change at failed
  split at failed
  next =>
    cases failed
    exact List.forall_mem_singleton.2 (.inl List.mem_cons_self)
  next setting found =>
    intro text member
    rcases Setting.texts_of_read_error (map_eq_error_iff.1 failed) text member with name | value
    · exact .inr ⟨setting, List.mem_of_find?_eq_some found, name⟩
    · exact .inl (by simp [Assignment.texts, value])

namespace Idle

theorem texts_of_readMoves_error {texts : List String} {refusal : Engine.Refusal}
    (failed : readMoves texts = .error refusal) : ∀ text ∈ refusal.texts, text ∈ texts := by
  induction texts with
  | nil => cases failed
  | cons first texts ih =>
    rw [readMoves] at failed
    unfold readMove at failed
    split at failed
    · exact fun text member => List.mem_cons_of_mem _ (ih (map_eq_error_iff.1 failed) text member)
    · cases failed
      exact List.forall_mem_singleton.2 List.mem_cons_self

theorem texts_of_refusal {idle state : Idle Unit} {order : Engine.Order}
    {signals : List (Engine.Signal Unit)} {refusal : Engine.Refusal}
    (refused : idle.obey order = .refused state signals refusal) :
    ∀ text ∈ refusal.texts, text ∈ order.texts := by
  cases order with
  | getReady | newGame => cases refused
  | setPosition fen moves =>
    simp only [obey] at refused
    cases read : readPosition fen moves with
    | ok moves =>
      rw [read] at refused
      cases refused
    | error cause =>
      rw [read] at refused
      cases refused
      unfold readPosition at read
      split at read
      · cases read
        exact List.forall_mem_singleton.2 List.mem_cons_self
      · exact fun text member => List.mem_cons_of_mem _ (texts_of_readMoves_error read text member)
  | go search =>
    simp only [obey] at refused
    cases read : answer search with
    | ok move =>
      rw [read] at refused
      dsimp only at refused
      split at refused <;> cases refused
    | error cause =>
      rw [read] at refused
      cases refused
      unfold answer at read
      split at read
      · cases read
      next text rest same =>
        unfold readMove at read
        split at read
        · cases read
        · cases read
          exact List.forall_mem_singleton.2 (by simp [Engine.Order.texts, same])

end Idle

/-! ### Lines -/

namespace Session

variable {session : Session (Idle Unit)} {error : LineError}

theorem texts_of_order_error {order : Engine.Order} {answer : List String}
    (failed : (session.order Idle.engine order answer).outcome = .error error) :
    ∀ text ∈ error.texts, text ∈ order.texts := by
  obtain ⟨_, _, refusal, refused, rfl, -⟩ := order_failed failed
  exact Idle.texts_of_refusal refused

-- An error names nothing that is not in the request, but for the name of a setting.
theorem texts_of_carryOut_error {request : Request}
    (failed : (session.carryOut Idle.engine request).outcome = .error error) :
    ∀ text ∈ error.texts,
      text ∈ request.texts ∨ ∃ setting ∈ session.settings.declared, text = setting.name := by
  cases request with
  | uci | stop | ponderHit | quit | xyzzy => cases failed
  | setOption assignment =>
    rw [carryOut_setOption] at failed
    rcases assign_cases session assignment with ⟨_, _, step⟩ | ⟨cause, wrong, step⟩
    · rw [step] at failed
      cases failed
    · rw [step] at failed
      cases failed
      exact Settings.texts_of_change_error wrong
  | isReady | newGame | position | go =>
    exact fun text member => .inl (texts_of_order_error failed text member)

/-- Whatever a line says, the message that it fails with has no line feed that neither the line nor
the name of a setting has. -/
theorem unbroken_of_failed {line : String} (unbroken : Unbroken line)
    (named : ∀ setting ∈ session.settings.declared, Unbroken setting.name)
    (failed : (session.handle Idle.engine line).outcome = .error error) :
    Unbroken error.message := by
  apply LineError.unbroken_message
  cases read : Request.ofLine line with
  | error cause =>
    rw [handle_invalid Idle.engine session read] at failed
    cases failed
    exact Request.unbroken_of_error unbroken read
  | ok found =>
    cases found with
    | none =>
      rw [handle_blank Idle.engine session read] at failed
      cases failed
    | some request =>
      rw [(handle_request Idle.engine session read).2] at failed
      intro text member
      rcases texts_of_carryOut_error failed text member with own | ⟨setting, declared, rfl⟩
      · exact Request.unbroken_of_request unbroken read text own
      · exact named setting declared

end Session

end UciProtocol
