import Mathlib.Data.List.Induction
import UciProtocol.Proofs.StandingSettings

/-! Settings as a history of declarations and assignments.

Of the values that a history gives to a key in a context the last counts. A declaration gives its
default everywhere; an assignment gives what the last declaration before it reads, and where there
is none or it reads nothing, the assignment is refused. -/

set_option autoImplicit false

namespace UciProtocol

namespace Settings

inductive Operation where
  | declare (setting : Setting)
  | set (assignment : Assignment)
  deriving DecidableEq, Repr

/-- A refused assignment leaves the settings. -/
def perform (settings : Settings) : Operation → Settings
  | .declare setting => settings.declare setting
  | .set assignment =>
    match settings.set assignment with
    | .ok changed => changed
    | .error _ => settings

def after (history : List Operation) : Settings := history.foldl perform {}

theorem after_concat (history : List Operation) (operation : Operation) :
    after (history ++ [operation]) = (after history).perform operation := by
  rw [after, List.foldl_append]
  rfl

/-- What holds when nothing has been done, and goes on to hold whatever is done, holds of every
history and the settings that it leads to. -/
theorem after_induction {motive : List Operation → Settings → Prop} (fresh : motive [] {})
    (step : ∀ history settings operation, motive history settings →
      motive (history ++ [operation]) (settings.perform operation))
    (history : List Operation) : motive history (after history) := by
  induction history using List.reverseRecOn with
  | nil => exact fresh
  | append_singleton history operation ih =>
    rw [after_concat]
    exact step history _ operation ih

theorem perform_of_ok {settings changed : Settings} {assignment : Assignment}
    (done : settings.set assignment = .ok changed) :
    settings.perform (.set assignment) = changed := by
  simp only [perform, done]

theorem perform_of_error {settings : Settings} {assignment : Assignment} {error : Setting.Error}
    (refused : settings.set assignment = .error error) :
    settings.perform (.set assignment) = settings := by
  simp only [perform, refused]

theorem declared_set (settings : Settings) (assignment : Assignment) :
    (settings.perform (.set assignment)).declared = settings.declared := by
  cases result : settings.set assignment with
  | ok changed =>
    obtain ⟨setting, value, -, -, rfl⟩ := set_eq_ok_iff.1 result
    rw [perform_of_ok result, declared_apply]
  | error error => rw [perform_of_error result]

theorem standing?_set (settings : Settings) (assignment : Assignment) (key : String) :
    (settings.perform (.set assignment)).standing? key = settings.standing? key := by
  rw [standing?, declared_set, standing?]

/-- An assignment has an effect on nothing but the key and the context that it names, and on these
where the setting that stands for the key reads its value. -/
theorem held?_set (settings : Settings) (assignment : Assignment) (context key : String) :
    (settings.perform (.set assignment)).held? context key =
      (if Setting.key assignment.name = key ∧ assignment.context = context then
        (settings.standing? key).bind fun setting => (setting.read assignment.value).toOption
      else none).or (settings.held? context key) := by
  cases result : settings.set assignment with
  | ok changed =>
    obtain ⟨setting, value, found, reads, rfl⟩ := set_eq_ok_iff.1 result
    rw [perform_of_ok result, Settings.apply, held?_hold, key_of_standing? found]
    by_cases here : Setting.key assignment.name = key ∧ assignment.context = context
    · rw [if_pos ⟨here.1.symm, here.2.symm⟩, if_pos here, ← here.1, found, Option.bind_some, reads]
      rfl
    · rw [if_neg fun both => here ⟨both.1.symm, both.2.symm⟩, if_neg here, Option.none_or]
  | error error =>
    rw [perform_of_error result]
    by_cases here : Setting.key assignment.name = key ∧ assignment.context = context
    · have unread : ((settings.standing? key).bind fun setting =>
          (setting.read assignment.value).toOption) = none := by
        rw [Option.bind_eq_none_iff, ← here.1]
        intro setting found
        cases reads : setting.read assignment.value with
        | error error => rfl
        | ok value =>
          cases result.symm.trans (set_eq_ok_iff.2 ⟨setting, value, found, reads, rfl⟩)
      rw [if_pos here, unread, Option.none_or]
    · rw [if_neg here, Option.none_or]

/-! ### What a history says -/

def Operation.declared? (key : String) : Operation → Option Setting
  | .declare setting => if Setting.key setting.name = key then some setting else none
  | .set _ => none

def declaration? (key : String) (history : List Operation) : Option Setting :=
  (history.filterMap (Operation.declared? key)).getLast?

/-- The value that an operation gives to a key in a context when the history before it is `before`.
The empty context stands for everywhere. -/
def Operation.given? (key context : String) (before : List Operation) :
    Operation → Option Setting.Value
  | .declare setting =>
    if Setting.key setting.name = key ∧ context = "" then some setting.default else none
  | .set assignment =>
    if Setting.key assignment.name = key ∧ assignment.context = context then
      (declaration? key before).bind fun setting => (setting.read assignment.value).toOption
    else none

/-- The values that a history behind `before` gives to a key in a context, in order. -/
def givenFrom (key context : String) (before : List Operation) :
    List Operation → List Setting.Value
  | [] => []
  | operation :: later =>
    (operation.given? key context before).toList ++
      givenFrom key context (before ++ [operation]) later

def given (key context : String) (history : List Operation) : List Setting.Value :=
  givenFrom key context [] history

section
variable {key context : String}

theorem declaration?_append (history later : List Operation) :
    declaration? key (history ++ later) =
      (declaration? key later).or (declaration? key history) := by
  unfold declaration?
  rw [List.filterMap_append, List.getLast?_append]

theorem declaration?_concat (history : List Operation) (operation : Operation) :
    declaration? key (history ++ [operation]) =
      (operation.declared? key).or (declaration? key history) := by
  have alone : declaration? key [operation] = operation.declared? key := by
    unfold declaration?
    cases declared : operation.declared? key with
    | none => rw [List.filterMap_cons_none declared]; rfl
    | some setting => rw [List.filterMap_cons_some declared]; rfl
  rw [declaration?_append, alone]

theorem givenFrom_concat (before history : List Operation) (operation : Operation) :
    givenFrom key context before (history ++ [operation]) =
      givenFrom key context before history ++
        (operation.given? key context (before ++ history)).toList := by
  induction history generalizing before with
  | nil => simp [givenFrom]
  | cons first history ih => simp [givenFrom, ih]

-- The last operation gives the last value if it gives one.
theorem getLast?_given_concat (history : List Operation) (operation : Operation) :
    (given key context (history ++ [operation])).getLast? =
      (operation.given? key context history).or (given key context history).getLast? := by
  unfold given
  rw [givenFrom_concat, List.nil_append, List.getLast?_append]
  cases operation.given? key context history <;> rfl

end

/-! ### Settings that recall a history -/

/-- What stands and is held for a key is what a history has declared and given last. -/
structure Recalls (settings : Settings) (key : String) (history : List Operation) : Prop where
  setting : settings.standing? key = declaration? key history
  value : ∀ context, settings.held? context key = (given key context history).getLast?

section
variable {settings : Settings} {key : String} {history : List Operation}

-- An operation brings what it declares and gives, and leaves the rest.
theorem Recalls.perform (recalls : settings.Recalls key history) (operation : Operation) :
    (settings.perform operation).Recalls key (history ++ [operation]) := by
  cases operation with
  | declare setting =>
    refine ⟨?_, fun context => ?_⟩
    · rw [declaration?_concat, ← recalls.setting, Operation.declared?]
      refine (standing?_declare settings setting key).trans ?_
      split <;> rfl
    · rw [getLast?_given_concat, ← recalls.value, Operation.given?]
      refine (held?_declare settings setting context key).trans ?_
      split <;> rfl
  | set assignment =>
    refine ⟨?_, fun context => ?_⟩
    · rw [standing?_set, declaration?_concat, ← recalls.setting]
      rfl
    · rw [held?_set, getLast?_given_concat, ← recalls.value, recalls.setting]
      rfl

theorem recalls_after (history : List Operation) (key : String) :
    (after history).Recalls key history :=
  after_induction (motive := fun history settings => settings.Recalls key history)
    ⟨rfl, fun context => ite_self none⟩ (fun _ _ operation recalls => recalls.perform operation)
    history

end

/-! ### Answers -/

-- The empty context stands for everywhere, and has no table of its own.
theorem unnamed_perform {settings : Settings} (unnamed : settings.contexts.get? "" = none)
    (operation : Operation) : (settings.perform operation).contexts.get? "" = none := by
  cases operation with
  | declare setting => exact unnamed
  | set assignment =>
    cases result : settings.set assignment with
    | error error => rwa [perform_of_error result]
    | ok changed =>
      obtain ⟨setting, value, -, -, rfl⟩ := set_eq_ok_iff.1 result
      rw [perform_of_ok result, Settings.apply]
      by_cases everywhere : assignment.context = ""
      · rwa [hold_everywhere _ _ _ everywhere]
      · rwa [hold_single _ _ _ everywhere, Table.get?_insert, if_neg (Ne.symm everywhere)]

theorem unnamed_after (history : List Operation) : (after history).contexts.get? "" = none :=
  after_induction (motive := fun _ settings => settings.contexts.get? "" = none) rfl
    (fun _ _ operation unnamed => unnamed_perform unnamed operation) history

theorem get?_after (history : List Operation) (name : String) :
    (after history).get? name = (given (Setting.key name) "" history).getLast? := by
  rw [get?_eq_held?, (recalls_after history _).value]

theorem getIn?_everywhere (history : List Operation) (name : String) :
    (after history).getIn? "" name = (after history).get? name := by
  rw [getIn?, unnamed_after]
  rfl

theorem getIn?_after (history : List Operation) {context : String} (single : context ≠ "")
    (name : String) :
    (after history).getIn? context name =
      (given (Setting.key name) context history).getLast?.or ((after history).get? name) := by
  rw [getIn?_eq_held? _ single, (recalls_after history _).value]

section
variable {settings : Settings} {history : List Operation}

theorem set_accepted_iff {assignment : Assignment}
    (recalls : settings.Recalls (Setting.key assignment.name) history) :
    (∃ changed, settings.set assignment = .ok changed) ↔
      ∃ setting value, declaration? (Setting.key assignment.name) history = some setting ∧
        setting.read assignment.value = .ok value := by
  rw [← recalls.setting]
  constructor
  · rintro ⟨changed, done⟩
    obtain ⟨setting, value, found, reads, -⟩ := set_eq_ok_iff.1 done
    exact ⟨setting, value, found, reads⟩
  · rintro ⟨setting, value, found, reads⟩
    exact ⟨_, set_eq_ok_iff.2 ⟨setting, value, found, reads, rfl⟩⟩

end

/-- The settings that a history leads to answer with what it has given last, and in a single context
with what holds everywhere where the history has given nothing in the context itself. An assignment
is accepted just if the last declaration of its key reads its value; a refused one leaves the
settings, and none changes what is declared. -/
theorem answers_by_last_given :
    ∀ history : List Operation,
      let settings := after history
      (∀ name, settings.get? name = (given (Setting.key name) "" history).getLast?) ∧
      (∀ context name, context ≠ "" →
        settings.getIn? context name =
          (given (Setting.key name) context history).getLast?.or (settings.get? name)) ∧
      (∀ name, settings.getIn? "" name = settings.get? name) ∧
      ∀ assignment,
        ((∃ changed, settings.set assignment = .ok changed) ↔
          ∃ setting value, declaration? (Setting.key assignment.name) history = some setting ∧
            setting.read assignment.value = .ok value) ∧
        (∀ error, settings.set assignment = .error error →
          after (history ++ [.set assignment]) = settings) ∧
        (after (history ++ [.set assignment])).declared = settings.declared ∧
        (after (history ++ [.set assignment])).lines = settings.lines := by
  intro history settings
  refine ⟨get?_after history, fun context name single => getIn?_after history single name,
    getIn?_everywhere history,
    fun assignment => ⟨set_accepted_iff (recalls_after history _), fun error refused => ?_, ?_, ?_⟩⟩
  · rw [after_concat, perform_of_error refused]
  · rw [after_concat, declared_set]
  · rw [lines, after_concat, declared_set, ← lines]

theorem context_keeps_last_given :
    let history : List Operation := [.declare ⟨"Hash", .spin 16 1 1024⟩, .set ⟨"Hash", "64", ""⟩,
      .declare ⟨"hash", .spin 8 1 32⟩, .set ⟨" HASH ", "16", "player1"⟩]
    (after history).get? "Hash" = some (.int 8) ∧
    (after history).getIn? "player1" "Hash" = some (.int 16) ∧
    (after history).getIn? "player2" "Hash" = some (.int 8) ∧
    after (history ++ [.set ⟨"hash", "64", "player1"⟩]) = after history := by
  intro history
  obtain ⟨everywhere, single, -, assigned⟩ := answers_by_last_given history
  have last : (given (Setting.key "Hash") "" history).getLast? = some (.int 8) := by
    decide +kernel
  have first : (given (Setting.key "Hash") "player1" history).getLast? = some (.int 16) := by
    decide +kernel
  have second : (given (Setting.key "Hash") "player2" history).getLast? = none := by
    decide +kernel
  have refused : (after history).set ⟨"hash", "64", "player1"⟩ =
      .error (.outOfRange "hash" 64 1 32) := by
    decide +kernel
  refine ⟨(everywhere "Hash").trans last, ?_, ?_, (assigned _).2.1 _ refused⟩
  · rw [single "player1" "Hash" (by decide), first, Option.some_or]
  · rw [single "player2" "Hash" (by decide), second, Option.none_or, everywhere, last]

end Settings

end UciProtocol
