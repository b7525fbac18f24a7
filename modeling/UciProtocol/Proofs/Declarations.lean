import Mathlib.Data.List.Nodup
import UciProtocol.Proofs.SettingValues

/-! The settings that are declared.

A history declares each key once, in the place of its first declaration and as the last one has it.
Exactly the declared keys have a value everywhere, and it is valid for the declaration that
stands. -/

set_option autoImplicit false

namespace UciProtocol

namespace Settings

def keys (settings : Settings) : List String :=
  settings.declared.map fun setting => Setting.key setting.name

def Operation.declaredKey? : Operation → Option String
  | .declare setting => some (Setting.key setting.name)
  | .set _ => none

def declaredKeys (history : List Operation) : List String :=
  (history.filterMap Operation.declaredKey?).eraseDups

theorem declaredKeys_declare (history : List Operation) (setting : Setting) :
    declaredKeys (history ++ [.declare setting]) =
      if Setting.key setting.name ∈ declaredKeys history then declaredKeys history
      else declaredKeys history ++ [Setting.key setting.name] := by
  have alone : [Operation.declare setting].filterMap Operation.declaredKey? =
      [Setting.key setting.name] := rfl
  unfold declaredKeys
  rw [List.filterMap_append, alone, List.eraseDups_append]
  simp only [List.mem_eraseDups, List.removeAll, List.filter_singleton, List.elem_eq_mem]
  by_cases again : Setting.key setting.name ∈ history.filterMap Operation.declaredKey?
  · rw [if_pos again, decide_eq_true again]
    exact List.append_nil _
  · rw [if_neg again, decide_eq_false again]
    rfl

theorem declaredKeys_set (history : List Operation) (assignment : Assignment) :
    declaredKeys (history ++ [.set assignment]) = declaredKeys history := by
  have alone : [Operation.set assignment].filterMap Operation.declaredKey? = [] := rfl
  rw [declaredKeys, List.filterMap_append, alone, List.append_nil, ← declaredKeys]

section
variable {settings : Settings} {key : String}

/-- A setting is put in the place of its key, or behind all others. -/
theorem keys_place (setting : Setting) (declared : List Setting) :
    (place setting declared).map (fun other => Setting.key other.name) =
      if Setting.key setting.name ∈ declared.map (fun other => Setting.key other.name) then
        declared.map fun other => Setting.key other.name
      else (declared.map fun other => Setting.key other.name) ++ [Setting.key setting.name] := by
  induction declared with
  | nil => rfl
  | cons other rest ih =>
    rw [place]
    split
    next same => simp [same]
    next apart =>
      rw [List.map_cons, List.map_cons, ih]
      simp only [List.mem_cons, Ne.symm apart, false_or]
      split <;> rfl

theorem keys_declare (settings : Settings) (setting : Setting) :
    (settings.declare setting).keys =
      if Setting.key setting.name ∈ settings.keys then settings.keys
      else settings.keys ++ [Setting.key setting.name] :=
  keys_place setting settings.declared

theorem mem_keys_declare {setting : Setting} :
    key ∈ (settings.declare setting).keys ↔
      key = Setting.key setting.name ∨ key ∈ settings.keys := by
  rw [keys_declare]
  split
  next present => exact ⟨.inr, fun either => either.elim (· ▸ present) id⟩
  next => rw [List.mem_append, List.mem_singleton, or_comm]

theorem keys_set (settings : Settings) (assignment : Assignment) :
    (settings.perform (.set assignment)).keys = settings.keys := by
  rw [keys, declared_set, ← keys]

theorem keys_after (history : List Operation) : (after history).keys = declaredKeys history := by
  refine after_induction (motive := fun history settings => settings.keys = declaredKeys history)
    rfl (fun history settings operation same => ?_) history
  cases operation with
  | declare setting =>
    rw [declaredKeys_declare, ← same]
    exact keys_declare settings setting
  | set assignment => rw [keys_set, same, declaredKeys_set]

theorem mem_place {setting other : Setting} {declared : List Setting}
    (member : other ∈ place setting declared) : other = setting ∨ other ∈ declared := by
  induction declared with
  | nil => exact .inl (List.mem_singleton.1 member)
  | cons first rest ih =>
    rw [place] at member
    split at member
    · exact (List.mem_cons.1 member).imp_right (List.mem_cons_of_mem _)
    · rcases List.mem_cons.1 member with rfl | later
      · exact .inr List.mem_cons_self
      · exact (ih later).imp_right (List.mem_cons_of_mem _)

theorem mem_place_self (setting : Setting) (declared : List Setting) :
    setting ∈ place setting declared := by
  induction declared with
  | nil => exact List.mem_singleton_self _
  | cons first rest ih =>
    rw [place]
    split
    · exact List.mem_cons_self
    · exact List.mem_cons_of_mem _ ih

/-! ### Declarations and values that keep in step -/

end

end Settings

/-- The default of a setting, or a value that it reads. -/
def Setting.MayHold (setting : Setting) (value : Setting.Value) : Prop :=
  value = setting.default ∨ ∃ text, setting.read text = .ok value

namespace Settings

/-- Each key is declared once. Just the declared keys have a value everywhere, which the setting may
hold, and a single context has values for declared keys only. -/
structure InStep (settings : Settings) : Prop where
  distinct : settings.keys.Nodup
  keyed : ∀ key, key ∈ settings.global.keys ↔ key ∈ settings.keys
  valid : ∀ setting ∈ settings.declared, ∃ value,
    settings.global.get? (Setting.key setting.name) = some value ∧ setting.MayHold value
  contexts : ∀ context held, settings.contexts.get? context = some held →
    ∀ key ∈ held.keys, key ∈ settings.keys

section
variable {settings : Settings} {key : String}

theorem eq_of_key_eq (distinct : settings.keys.Nodup) {setting other : Setting}
    (first : setting ∈ settings.declared) (second : other ∈ settings.declared)
    (same : Setting.key setting.name = Setting.key other.name) : setting = other :=
  List.inj_on_of_nodup_map distinct first second same

theorem InStep.declare (inStep : settings.InStep) (setting : Setting) :
    (settings.declare setting).InStep := by
  have distinct : (settings.declare setting).keys.Nodup := by
    rw [keys_declare]
    split
    next => exact inStep.distinct
    next fresh =>
      rw [← List.concat_eq_append]
      exact inStep.distinct.concat fresh
  refine ⟨distinct, fun key => ?_, fun other declared => ?_,
    fun context held found key member => ?_⟩
  · rw [mem_keys_declare, ← inStep.keyed]
    exact Table.mem_keys_insert _
  · have place : (settings.declare setting).global.get? (Setting.key other.name) =
        if Setting.key other.name = Setting.key setting.name then some setting.default
        else settings.global.get? (Setting.key other.name) := Table.get?_insert ..
    rw [place]
    by_cases same : Setting.key other.name = Setting.key setting.name
    · obtain rfl := eq_of_key_eq distinct declared (mem_place_self setting _) same
      exact ⟨_, if_pos rfl, .inl rfl⟩
    · rw [if_neg same]
      have apart : other ≠ setting := fun equal => same (equal ▸ rfl)
      exact inStep.valid other ((mem_place declared).resolve_left apart)
  · exact mem_keys_declare.2 (.inr (inStep.contexts context held found key member))

section
variable {setting : Setting} {value : Setting.Value} {context : String} (inStep : settings.InStep)
  (declared : setting ∈ settings.declared)
include inStep declared

theorem InStep.hold_everywhere (valid : setting.MayHold value) (everywhere : context = "") :
    (settings.hold context (Setting.key setting.name) value).InStep := by
  have present : Setting.key setting.name ∈ settings.keys := List.mem_map_of_mem declared
  rw [Settings.hold_everywhere _ _ _ everywhere]
  refine ⟨inStep.distinct, fun key => ?_, fun other member => ?_, inStep.contexts⟩
  · rw [Table.mem_keys_insert, inStep.keyed]
    refine ⟨?_, .inr⟩
    rintro (rfl | before)
    · exact present
    · exact before
  · rw [Table.get?_insert]
    by_cases same : Setting.key other.name = Setting.key setting.name
    · obtain rfl := eq_of_key_eq inStep.distinct member declared same
      exact ⟨value, if_pos rfl, valid⟩
    · rw [if_neg same]
      exact inStep.valid other member

theorem InStep.hold_single (single : context ≠ "") :
    (settings.hold context (Setting.key setting.name) value).InStep := by
  have present : Setting.key setting.name ∈ settings.keys := List.mem_map_of_mem declared
  rw [Settings.hold_single _ _ _ single]
  refine ⟨inStep.distinct, inStep.keyed, inStep.valid, fun other held found key member => ?_⟩
  rw [Table.get?_insert] at found
  split at found
  next =>
    cases found
    rcases (Table.mem_keys_insert _).1 member with rfl | before
    · exact present
    · cases table : settings.contexts.get? context with
      | none =>
        rw [table] at before
        cases before
      | some held =>
        rw [table] at before
        exact inStep.contexts context held table key before
  next => exact inStep.contexts other held found key member

end

theorem InStep.perform (inStep : settings.InStep) (operation : Operation) :
    (settings.perform operation).InStep := by
  cases operation with
  | declare setting => exact inStep.declare setting
  | set assignment =>
    cases result : settings.set assignment with
    | error error => rwa [perform_of_error result]
    | ok changed =>
      obtain ⟨setting, value, found, reads, rfl⟩ := set_eq_ok_iff.1 result
      rw [perform_of_ok result]
      have declared := mem_of_standing? found
      by_cases everywhere : assignment.context = ""
      · exact inStep.hold_everywhere declared (.inr ⟨_, reads⟩) everywhere
      · exact inStep.hold_single declared everywhere

theorem inStep_fresh : ({} : Settings).InStep where
  distinct := List.nodup_nil
  keyed _ := Iff.rfl
  valid := List.forall_mem_nil _
  contexts _ _ found := nomatch found

theorem inStep_after (history : List Operation) : (after history).InStep :=
  after_induction (motive := fun _ settings => settings.InStep) inStep_fresh
    (fun _ _ operation inStep => inStep.perform operation) history

/-! ### What is declared -/

theorem standing?_of_mem (distinct : settings.keys.Nodup) {setting : Setting}
    (member : setting ∈ settings.declared) :
    settings.standing? (Setting.key setting.name) = some setting := by
  cases found : settings.standing? (Setting.key setting.name) with
  | none => simpa using List.find?_eq_none.1 found setting member
  | some other =>
    exact congrArg some
      (eq_of_key_eq distinct (mem_of_standing? found) member (key_of_standing? found))

-- What stands is the last declaration of its key.
theorem declared_after (history : List Operation) :
    (after history).declared.map some =
      (declaredKeys history).map (declaration? · history) := by
  rw [← keys_after, keys, List.map_map]
  refine List.map_congr_left fun setting member => ?_
  rw [Function.comp_apply, ← (recalls_after history _).setting]
  exact (standing?_of_mem (inStep_after history).distinct member).symm

/-! ### Values -/

def Stands (settings : Settings) (name : String) (setting : Setting) : Prop :=
  setting ∈ settings.declared ∧ Setting.key setting.name = Setting.key name

theorem InStep.get?_isSome_iff (inStep : settings.InStep) (name : String) :
    (∃ value, settings.get? name = some value) ↔ Setting.key name ∈ settings.keys := by
  rw [← inStep.keyed, Table.mem_keys_iff]
  rfl

/-- In a single context, too, just the declared names have a value. -/
theorem InStep.getIn?_isSome_iff (inStep : settings.InStep) (context name : String) :
    (∃ value, settings.getIn? context name = some value) ↔ Setting.key name ∈ settings.keys := by
  constructor
  · rintro ⟨value, found⟩
    rcases Option.or_eq_some_iff.1 found with own | ⟨-, everywhere⟩
    · obtain ⟨held, table, holds⟩ := Option.bind_eq_some_iff.1 own
      exact inStep.contexts context held table _ (Table.mem_keys_iff.2 ⟨value, holds⟩)
    · exact (inStep.get?_isSome_iff name).1 ⟨value, everywhere⟩
  · intro declared
    obtain ⟨value, everywhere⟩ := (inStep.get?_isSome_iff name).2 declared
    unfold getIn?
    dsimp only
    cases (settings.contexts.get? context).bind (·.get? (Setting.key name)) with
    | none => exact ⟨value, everywhere⟩
    | some own => exact ⟨own, rfl⟩

theorem InStep.standing_of_get? (inStep : settings.InStep) {name : String} {value : Setting.Value}
    (found : settings.get? name = some value) :
    ∃ setting, settings.Stands name setting ∧ setting.MayHold value := by
  have keyed := (inStep.get?_isSome_iff name).1 ⟨value, found⟩
  obtain ⟨setting, declared, same⟩ := List.mem_map.1 keyed
  obtain ⟨held, holds, valid⟩ := inStep.valid setting declared
  rw [same] at holds
  obtain rfl := Option.some.inj (holds.symm.trans found)
  exact ⟨setting, ⟨declared, same⟩, valid⟩

end

end Settings

/-- Only a spin takes integers. -/
theorem Setting.spin_of_int {setting : Setting} {n : Int64}
    (valid : setting.MayHold (.int n)) :
    ∃ default least greatest, setting.kind = .spin default least greatest ∧
      (n = default ∨ least ≤ n ∧ n ≤ greatest) := by
  obtain ⟨name, kind⟩ := setting
  rcases valid with same | ⟨text, reads⟩
  · cases kind <;> cases same
    exact ⟨_, _, _, rfl, .inl rfl⟩
  · have accepted := accepts_of_read reads
    cases kind with
    | spin default least greatest => exact ⟨default, least, greatest, rfl, .inr accepted⟩
    | check | combo | string => exact accepted.elim

/-- Only a check takes truth values. -/
theorem Setting.check_of_bool {setting : Setting} {value : Bool}
    (valid : setting.MayHold (.bool value)) :
    ∃ default, setting.kind = .check default := by
  obtain ⟨name, kind⟩ := setting
  rcases valid with same | ⟨text, reads⟩
  · cases kind <;> cases same
    exact ⟨_, rfl⟩
  · have accepted := accepts_of_read reads
    cases kind with
    | check default => exact ⟨default, rfl⟩
    | spin | combo | string => exact accepted.elim

namespace Settings

/-- A history declares each key once, in the order of the first declarations and each as its last
declaration has it. Just the declared keys have a value everywhere: the default of the declaration
that stands, or a value that it reads. So just the declared names have one, in a single context as
well as everywhere, integers are found for spins only and a check alone is on. -/
theorem declares_each_key_once :
    ∀ history : List Operation,
      let settings := after history
      (settings.declared.map fun setting => Setting.key setting.name).Nodup ∧
      (settings.declared.map fun setting => Setting.key setting.name) = declaredKeys history ∧
      settings.declared.map some = (declaredKeys history).map (declaration? · history) ∧
      (∀ key, key ∈ settings.global.keys ↔ key ∈ declaredKeys history) ∧
      (∀ setting ∈ settings.declared, ∃ value,
        settings.global.get? (Setting.key setting.name) = some value ∧ setting.MayHold value) ∧
      (∀ name, (∃ value, settings.get? name = some value) ↔
        Setting.key name ∈ declaredKeys history) ∧
      (∀ context name, (∃ value, settings.getIn? context name = some value) ↔
        Setting.key name ∈ declaredKeys history) ∧
      (∀ name value, settings.get? name = some value →
        ∃ setting, settings.Stands name setting ∧ setting.MayHold value) ∧
      (∀ name n, settings.int? name = some n →
        ∃ setting default least greatest, settings.Stands name setting ∧
          setting.kind = .spin default least greatest ∧
          (n = default ∨ least ≤ n ∧ n ≤ greatest)) ∧
      ∀ name, settings.isOn name = true →
        ∃ setting default, settings.Stands name setting ∧ setting.kind = .check default := by
  intro history settings
  have inStep : settings.InStep := inStep_after history
  rw [← keys_after]
  refine ⟨inStep.distinct, rfl, ?_, inStep.keyed, inStep.valid, inStep.get?_isSome_iff,
    inStep.getIn?_isSome_iff, fun name value => inStep.standing_of_get?, fun name n found => ?_,
    fun name on => ?_⟩
  · rw [keys_after, ← declared_after]
  · have value : settings.get? name = some (.int n) := by
      unfold int? at found
      split at found
      next m held =>
        cases found
        exact held
      next => cases found
    obtain ⟨setting, stands, valid⟩ := inStep.standing_of_get? value
    obtain ⟨default, least, greatest, spin, bounds⟩ := Setting.spin_of_int valid
    exact ⟨setting, default, least, greatest, stands, spin, bounds⟩
  · have value : settings.get? name = some (.bool true) := by simpa [isOn] using on
    obtain ⟨setting, stands, valid⟩ := inStep.standing_of_get? value
    obtain ⟨default, check⟩ := Setting.check_of_bool valid
    exact ⟨setting, default, stands, check⟩

theorem declares_respelled_name_in_place :
    let history : List Operation := [.declare ⟨"Hash", .spin 16 1 1024⟩,
      .declare ⟨"Ponder", .check false⟩, .set ⟨"hash", "64", ""⟩, .set ⟨"PONDER", "1", ""⟩,
      .declare ⟨" HASH ", .spin 4 8 32⟩]
    (after history).declared = [⟨" HASH ", .spin 4 8 32⟩, ⟨"Ponder", .check false⟩] ∧
    (∀ key, key ∈ (after history).global.keys ↔ key ∈ ["hash", "ponder"]) ∧
    (after history).int? "Hash" = some 4 ∧ (after history).isOn "Ponder" = true ∧
    (∃ setting default least greatest, (after history).Stands "Hash" setting ∧
      setting.kind = .spin default least greatest ∧ (4 = default ∨ least ≤ 4 ∧ 4 ≤ greatest)) ∧
    ∃ setting default, (after history).Stands "Ponder" setting ∧ setting.kind = .check default := by
  intro history
  obtain ⟨-, -, declared, keyed, -, -, -, -, ints, checks⟩ := declares_each_key_once history
  have keys : declaredKeys history = ["hash", "ponder"] := by decide +kernel
  rw [keys] at keyed
  have number : (after history).int? "Hash" = some 4 := by decide +kernel
  have on : (after history).isOn "Ponder" = true := by decide +kernel
  have last : (declaredKeys history).map (declaration? · history) =
      [⟨" HASH ", .spin 4 8 32⟩, ⟨"Ponder", .check false⟩].map some := by
    decide +kernel
  exact ⟨List.map_injective_iff.2 (fun _ _ => Option.some.inj) (declared.trans last), keyed,
    number, on, ints "Hash" 4 number, checks "Ponder" on⟩

end Settings

end UciProtocol
