import UciProtocol.Proofs.NumeralFaults

/-! Values that are read from the text they are shown as.

What a text means for a setting is told by its kind. A value is shown as a text that means the same
value again, so a setting that is given what it already shows keeps its value, and with it all
settings keep theirs.
-/

set_option autoImplicit false

namespace UciProtocol

open Text

namespace Setting

/-- What a text means for a setting of a kind. Case counts neither for a check nor for a combo, of
whose choices the first that agrees is meant, as it is spelled there. -/
inductive Means (text : String) : Kind → Value → Prop where
  | on (default : Bool) : lowered text ∈ ["true", "1"] → Means text (.check default) (.bool true)
  | off (default : Bool) : lowered text ∈ ["false", "0"] →
      Means text (.check default) (.bool false)
  | spin (default : Int64) {least greatest n : Int64} : Numeral.Writes text.toList n.toInt →
      least ≤ n → n ≤ greatest → Means text (.spin default least greatest) (.int n)
  | combo (default : String) {choices front back : List String} {choice : String} :
      choices = front ++ choice :: back → lowered choice = lowered text →
      (∀ earlier ∈ front, lowered earlier ≠ lowered text) →
      Means text (.combo default choices) (.text choice)
  | string (default : String) : Means text (.string default) (.text text)

def IsCaseless (setting : Setting) : Prop :=
  match setting.kind with
  | .check _ | .combo _ _ => True
  | .spin _ _ _ | .string _ => False

variable {setting : Setting} {name text : String} {value : Value}

theorem read_check_iff {default : Bool} :
    read ⟨name, .check default⟩ text = .ok value ↔ Means text (.check default) value := by
  simp only [read]
  constructor
  · intro reads
    split at reads
    next on =>
      cases reads
      exact .on default (by simpa using on)
    next =>
      split at reads
      next off =>
        cases reads
        exact .off default (by simpa using off)
      next => cases reads
  · intro means
    cases means with
    | on _ given => rw [if_pos (by simpa using given)]
    | off _ given =>
      have off : lowered text = "false" ∨ lowered text = "0" := by simpa using given
      have other : ¬ (lowered text = "true" ∨ lowered text = "1") := by
        rcases off with same | same <;> rw [same] <;> decide
      rw [if_neg other, if_pos off]

theorem read_spin_iff {default least greatest : Int64} :
    read ⟨name, .spin default least greatest⟩ text = .ok value ↔
      Means text (.spin default least greatest) value := by
  rw [read_spin_eq_ok_iff]
  constructor
  · rintro ⟨n, rfl, found, low, high⟩
    exact .spin default ((Numeral.readInt64_iff n.toInt).1 ⟨n, found, rfl⟩).1 low high
  · intro means
    cases means with
    | spin _ writes low high =>
      rename_i n
      obtain ⟨m, found, same⟩ :=
        (Numeral.readInt64_iff n.toInt).2 ⟨writes, Numeral.Range.int64_contains n⟩
      rw [Int64.toInt_inj.1 same] at found
      exact ⟨n, rfl, found, low, high⟩

theorem read_combo_iff {default : String} {choices : List String} :
    read ⟨name, .combo default choices⟩ text = .ok value ↔
      Means text (.combo default choices) value := by
  simp only [read]
  constructor
  · intro reads
    split at reads
    next choice found =>
      cases reads
      obtain ⟨same, front, back, cut, others⟩ := List.find?_eq_some_iff_append.1 found
      exact .combo default cut (by simpa using same) (by simpa using others)
    next => cases reads
  · intro means
    cases means with
    | combo _ cut same others =>
      rename_i front back choice
      have found : (choices.find? fun choice => lowered choice = lowered text) = some choice :=
        List.find?_eq_some_iff_append.2
          ⟨by simpa using same, front, back, cut, by simpa using others⟩
      rw [found]

/-- A setting reads what a text means for its kind. -/
theorem read_iff_means : setting.read text = .ok value ↔ Means text setting.kind value := by
  obtain ⟨name, kind⟩ := setting
  cases kind with
  | check default => exact read_check_iff
  | spin default least greatest => exact read_spin_iff
  | combo default choices => exact read_combo_iff
  | string default =>
    constructor
    · intro reads
      cases reads
      exact .string default
    · intro means
      cases means
      rfl

-- The text that shows a value means the value, if any text does.
theorem Means.render {kind : Kind} (means : Means text kind value) :
    Means value.render kind value := by
  cases means with
  | on default given => exact .on default (by decide)
  | off default given => exact .off default (by decide)
  | spin default writes low high =>
    have written := Numeral.readInt64_writeInt64 ‹Int64›
    exact .spin default ((Numeral.readInt64_iff _).1 ⟨_, written, rfl⟩).1 low high
  | combo default cut same others => exact .combo default cut rfl (by rwa [Value.render, same])
  | string default => exact .string default

theorem read_render (reads : setting.read text = .ok value) :
    setting.read value.render = .ok value :=
  read_iff_means.2 (read_iff_means.1 reads).render

theorem Means.of_lowered {kind : Kind} {other : String} (caseless : IsCaseless ⟨name, kind⟩)
    (same : lowered text = lowered other) (means : Means text kind value) :
    Means other kind value := by
  cases means with
  | on default given => exact .on default (same ▸ given)
  | off default given => exact .off default (same ▸ given)
  | combo default cut agrees others => exact .combo default cut (same ▸ agrees) (same ▸ others)
  | spin | string => exact caseless.elim

/-- Texts that differ in case alone are read alike. -/
theorem read_lowered {other : String} (caseless : setting.IsCaseless)
    (same : lowered text = lowered other) :
    setting.read text = .ok value ↔ setting.read other = .ok value := by
  obtain ⟨name, kind⟩ := setting
  rw [read_iff_means, read_iff_means]
  exact ⟨.of_lowered caseless same, .of_lowered caseless same.symm⟩

end Setting

/-! ### Settings that are given what they show -/

namespace Settings

-- The value may be given under any name that means the setting.
theorem set_again {settings : Settings} {assignment : Assignment} {setting : Setting}
    {value : Setting.Value} {name : String}
    (found : settings.standing? (Setting.key assignment.name) = some setting)
    (reads : setting.read assignment.value = .ok value)
    (named : Setting.key name = Setting.key assignment.name) :
    let changed := settings.apply ⟨setting, value, assignment.context⟩
    changed.set ⟨name, value.render, assignment.context⟩ = .ok changed := by
  refine set_eq_ok_iff.2 ⟨setting, value, ?_, Setting.read_render reads, ?_⟩
  · rw [named, standing?, declared_apply, ← standing?, found]
  · exact (hold_hold settings _ _).symm

theorem getIn?_of_set {history : List Operation} {assignment : Assignment} {setting : Setting}
    {value : Setting.Value} {name : String}
    (found : (after history).standing? (Setting.key assignment.name) = some setting)
    (reads : setting.read assignment.value = .ok value)
    (named : Setting.key name = Setting.key assignment.name) :
    ((after history).apply ⟨setting, value, assignment.context⟩).getIn? assignment.context name =
      some value := by
  have done := set_eq_ok_iff.2 ⟨setting, value, found, reads, rfl⟩
  have reached : (after history).apply ⟨setting, value, assignment.context⟩ =
      after (history ++ [.set assignment]) := by
    rw [after_concat, perform_of_ok done]
  have held : ((after history).apply ⟨setting, value, assignment.context⟩).held?
      assignment.context (Setting.key name) = some value := by
    rw [Settings.apply, held?_hold, if_pos ⟨named.trans (key_of_standing? found).symm, rfl⟩]
  by_cases everywhere : assignment.context = ""
  · rw [reached, everywhere, getIn?_everywhere, get?_eq_held?, ← everywhere, ← reached, held]
  · rw [getIn?_eq_held? _ everywhere, held, Option.some_or]

/-- A setting reads just the values that a text means for its kind, and reads a value from the text
that shows it; where case does not count, texts that differ in it alone are read alike. So where an
assignment has had an effect, its value is found, and assigning what is shown there, under any name
of the setting, has an effect again and leaves all values as they are. -/
theorem shown_values_are_stable :
    (∀ (setting : Setting) text value,
      setting.read text = .ok value ↔ Setting.Means text setting.kind value) ∧
    (∀ (setting : Setting) text value, setting.read text = .ok value →
      setting.read value.render = .ok value) ∧
    (∀ (setting : Setting) text other, setting.IsCaseless → lowered text = lowered other →
      ∀ value, setting.read text = .ok value ↔ setting.read other = .ok value) ∧
    ∀ (history : List Operation) assignment changed,
      (after history).set assignment = .ok changed →
      ∀ name, Setting.key name = Setting.key assignment.name →
        ∃ setting value,
          declaration? (Setting.key name) history = some setting ∧
          setting.read assignment.value = .ok value ∧
          changed.getIn? assignment.context name = some value ∧
          changed.set ⟨name, value.render, assignment.context⟩ = .ok changed := by
  refine ⟨fun _ _ _ => Setting.read_iff_means, fun _ _ _ => Setting.read_render,
    fun _ _ _ caseless same _ => Setting.read_lowered caseless same,
    fun history assignment changed done name named => ?_⟩
  obtain ⟨setting, value, found, reads, rfl⟩ := set_eq_ok_iff.1 done
  refine ⟨setting, value, ?_, reads, getIn?_of_set found reads named, set_again found reads named⟩
  rw [named, ← (recalls_after history _).setting, found]

theorem first_choice_is_stable :
    let history : List Operation :=
      [.declare ⟨"Style", .combo "Normal" ["Normal", "Risky", "RISKY"]⟩]
    ∃ changed, (after history).set ⟨"style", "rIsKy", "player1"⟩ = .ok changed ∧
      changed.getIn? "player1" " STYLE " = some (.text "Risky") ∧
      changed.set ⟨" STYLE ", "Risky", "player1"⟩ = .ok changed := by
  intro history
  let style : Setting := ⟨"Style", .combo "Normal" ["Normal", "Risky", "RISKY"]⟩
  let changed := (after history).apply ⟨style, .text "Risky", "player1"⟩
  have done : (after history).set ⟨"style", "rIsKy", "player1"⟩ = .ok changed := by
    decide +kernel
  obtain ⟨-, rereads, caseless, again⟩ := shown_values_are_stable
  obtain ⟨setting, value, declared, reads, found, kept⟩ :=
    again history _ changed done " STYLE " (by decide +kernel)
  obtain rfl : style = setting :=
    Option.some.inj ((show _ = some style by decide +kernel).symm.trans declared)
  have same := (caseless style "Risky" "rIsKy" trivial (by decide +kernel) value).2 reads
  obtain rfl : value = .text "Risky" :=
    Except.ok.inj (same.symm.trans (by decide +kernel))
  exact ⟨changed, done, found, kept⟩

end Settings

end UciProtocol
