import UciProtocol.Proofs.Tables
import UciProtocol.Settings

/-! The setting that stands for a key, and the value that a context holds for it.

A declaration puts its setting in the place of the one that stood for the key, and an accepted
assignment puts its value into the context that it names. Neither touches another key or context.
-/

set_option autoImplicit false

namespace UciProtocol

namespace Settings

def standing? (settings : Settings) (key : String) : Option Setting :=
  settings.declared.find? fun setting => Setting.key setting.name = key

/-- The value that is held for a key in a context, the empty one standing for everywhere. -/
def held? (settings : Settings) (context key : String) : Option Setting.Value :=
  if context = "" then settings.global.get? key
  else (settings.contexts.get? context).bind (·.get? key)

theorem find?_eq_standing? (settings : Settings) (name : String) :
    settings.find? name = settings.standing? (Setting.key name) := rfl

theorem get?_eq_held? (settings : Settings) (name : String) :
    settings.get? name = settings.held? "" (Setting.key name) :=
  (if_pos rfl).symm

theorem getIn?_eq_held? (settings : Settings) {context : String} (single : context ≠ "")
    (name : String) :
    settings.getIn? context name =
      (settings.held? context (Setting.key name)).or (settings.get? name) := by
  rw [held?, if_neg single]
  rfl

theorem key_of_standing? {settings : Settings} {key : String} {setting : Setting}
    (found : settings.standing? key = some setting) : Setting.key setting.name = key := by
  simpa using List.find?_some found

theorem mem_of_standing? {settings : Settings} {key : String} {setting : Setting}
    (found : settings.standing? key = some setting) : setting ∈ settings.declared :=
  List.mem_of_find?_eq_some found

/-! ### Declarations -/

theorem find?_place (setting : Setting) (declared : List Setting) (key : String) :
    (place setting declared).find? (fun other => Setting.key other.name = key) =
      if Setting.key setting.name = key then some setting
      else declared.find? fun other => Setting.key other.name = key := by
  induction declared with
  | nil =>
    rw [place, List.find?_singleton]
    simp
  | cons other rest ih =>
    rw [place]
    split
    next same =>
      rw [List.find?_cons, List.find?_cons, same]
      by_cases named : Setting.key setting.name = key <;> simp [named]
    next apart =>
      rw [List.find?_cons, List.find?_cons, ih]
      by_cases named : Setting.key other.name = key
      · have behind : Setting.key setting.name ≠ key := fun same => apart (named.trans same.symm)
        rw [decide_eq_true named, if_neg behind, if_neg behind]
      · rw [decide_eq_false named]

theorem standing?_declare (settings : Settings) (setting : Setting) (key : String) :
    (settings.declare setting).standing? key =
      if Setting.key setting.name = key then some setting else settings.standing? key :=
  find?_place setting settings.declared key

theorem held?_declare (settings : Settings) (setting : Setting) (context key : String) :
    (settings.declare setting).held? context key =
      if Setting.key setting.name = key ∧ context = "" then some setting.default
      else settings.held? context key := by
  unfold held? declare
  by_cases everywhere : context = ""
  · simp [everywhere, Table.get?_insert, eq_comm]
  · simp [everywhere]

/-! ### Assignments -/

section
variable (settings : Settings) {context : String} (key : String) (value : Setting.Value)

theorem hold_everywhere (everywhere : context = "") :
    settings.hold context key value =
      { settings with global := settings.global.insert key value } :=
  if_pos everywhere

theorem hold_single (single : context ≠ "") :
    settings.hold context key value =
      { settings with
        contexts := settings.contexts.insert context
          (((settings.contexts.get? context).getD .empty).insert key value) } :=
  if_neg single

theorem held?_hold (other otherKey : String) :
    (settings.hold context key value).held? other otherKey =
      if otherKey = key ∧ other = context then some value else settings.held? other otherKey := by
  unfold held?
  by_cases everywhere : context = ""
  · rw [hold_everywhere settings key value everywhere]
    by_cases same : other = "" <;> simp [everywhere, same, Table.get?_insert]
  · rw [hold_single settings key value everywhere]
    by_cases same : other = context
    · subst same
      cases settings.contexts.get? other <;> simp [everywhere, Table.get?_insert]
    · by_cases empty : other = "" <;> simp [same, empty, Ne.symm everywhere, Table.get?_insert]

/-- Holding a value that is held already changes nothing. -/
theorem hold_hold :
    (settings.hold context key value).hold context key value =
      settings.hold context key value := by
  by_cases everywhere : context = ""
  · rw [hold_everywhere _ _ _ everywhere, hold_everywhere _ _ _ everywhere, Table.insert_insert]
  · rw [hold_single _ _ _ everywhere, hold_single _ _ _ everywhere, Table.get?_insert, if_pos rfl,
      Option.getD_some, Table.insert_insert, Table.insert_insert]

theorem declared_hold : (settings.hold context key value).declared = settings.declared := by
  unfold hold
  split <;> rfl

end

theorem declared_apply (settings : Settings) (change : Change) :
    (settings.apply change).declared = settings.declared :=
  declared_hold settings _ _

/-- An assignment passes its check just if a setting stands for its key that reads its value. -/
theorem change_eq_ok_iff {settings : Settings} {assignment : Assignment} {change : Change} :
    settings.change assignment = .ok change ↔
      ∃ setting value, settings.standing? (Setting.key assignment.name) = some setting ∧
        setting.read assignment.value = .ok value ∧
        change = ⟨setting, value, assignment.context⟩ := by
  unfold Settings.change
  rw [find?_eq_standing?]
  cases settings.standing? (Setting.key assignment.name) with
  | none => simp
  | some setting =>
    dsimp only
    cases read : setting.read assignment.value with
    | error error => simp [Except.map, read]
    | ok value => simp [Except.map, read, eq_comm]

/-- An assignment that has an effect holds what the setting of its key reads. -/
theorem set_eq_ok_iff {settings changed : Settings} {assignment : Assignment} :
    settings.set assignment = .ok changed ↔
      ∃ setting value, settings.standing? (Setting.key assignment.name) = some setting ∧
        setting.read assignment.value = .ok value ∧
        changed = settings.apply ⟨setting, value, assignment.context⟩ := by
  unfold set
  constructor
  · intro done
    cases accepted : settings.change assignment with
    | error error =>
      rw [accepted] at done
      cases done
    | ok change =>
      rw [accepted] at done
      cases done
      obtain ⟨setting, value, found, reads, rfl⟩ := change_eq_ok_iff.1 accepted
      exact ⟨setting, value, found, reads, rfl⟩
  · rintro ⟨setting, value, found, reads, rfl⟩
    rw [change_eq_ok_iff.2 ⟨setting, value, found, reads, rfl⟩]
    rfl

end Settings

end UciProtocol
