import UciProtocol.Proofs.Histories

/-! The values that settings are found to have.

What holds everywhere is the default of the current declaration or a value that this declaration
accepts. A value of a single context has been accepted by the declaration of its time, which need
not be the current one. -/

set_option autoImplicit false

namespace UciProtocol

namespace Setting

def Accepts (setting : Setting) (value : Value) : Prop :=
  match setting.kind, value with
  | .check _, .bool _ => True
  | .spin _ least greatest, .int n => least ≤ n ∧ n ≤ greatest
  | .combo _ choices, .text choice => choice ∈ choices
  | .string _, .text _ => True
  | _, _ => False

theorem accepts_of_read {setting : Setting} {text : String} {value : Value}
    (reads : setting.read text = .ok value) : setting.Accepts value := by
  obtain ⟨name, kind⟩ := setting
  cases kind with
  | check default =>
    simp only [read] at reads
    split at reads
    · cases reads
      trivial
    · split at reads <;> cases reads
      trivial
  | spin default least greatest =>
    simp only [read] at reads
    split at reads
    · cases reads
    · split at reads
      · cases reads
      · rename_i n _ inside
        cases reads
        obtain ⟨low, high⟩ := not_or.1 inside
        exact ⟨Int64.not_lt.1 low, Int64.not_lt.1 high⟩
  | combo default choices =>
    simp only [read] at reads
    split at reads
    · rename_i found
      cases reads
      exact List.mem_of_find?_eq_some found
    · cases reads
  | string default =>
    simp only [read] at reads
    cases reads
    trivial

end Setting

namespace Settings

section
variable {key context : String} {value : Setting.Value}

theorem Operation.given?_eq_some {operation : Operation} {before : List Operation}
    (gives : operation.given? key context before = some value) :
    (∃ setting, operation = .declare setting ∧ Setting.key setting.name = key ∧ context = "" ∧
      value = setting.default) ∨
    ∃ assignment earlier, operation = .set assignment ∧ Setting.key assignment.name = key ∧
      assignment.context = context ∧ declaration? key before = some earlier ∧
      earlier.read assignment.value = .ok value := by
  cases operation with
  | declare setting =>
    simp only [given?, Option.ite_none_right_eq_some, Option.some.injEq] at gives
    exact .inl ⟨setting, rfl, gives.1.1, gives.1.2, gives.2.symm⟩
  | set assignment =>
    simp only [given?, Option.ite_none_right_eq_some, Option.bind_eq_some_iff] at gives
    obtain ⟨⟨same, single⟩, earlier, declared, given⟩ := gives
    cases reads : earlier.read assignment.value with
    | error error =>
      rw [reads] at given
      cases given
    | ok read =>
      rw [reads] at given
      obtain rfl : read = value := Option.some.inj given
      exact .inr ⟨assignment, earlier, rfl, same, single, declared, reads⟩

-- A declaration always gives a value everywhere.
theorem Operation.undeclared_of_ungiven {operation : Operation} {before : List Operation}
    (ungiven : operation.given? key "" before = none) : operation.declared? key = none := by
  cases operation with
  | declare setting =>
    rw [declared?, if_neg fun same => ?_]
    rw [given?, if_pos ⟨same, rfl⟩] at ungiven
    cases ungiven
  | set assignment => rfl

/-- What a history gives everywhere is the default of its last declaration, or read by it. -/
theorem read_everywhere {history : List Operation}
    (last : (given key "" history).getLast? = some value) :
    ∃ current, declaration? key history = some current ∧
      (value = current.default ∨ ∃ text, current.read text = .ok value) := by
  induction history using List.reverseRecOn with
  | nil => cases last
  | append_singleton history operation ih =>
    rw [getLast?_given_concat, Option.or_eq_some_iff] at last
    rw [declaration?_concat]
    rcases last with gives | ⟨ungiven, last⟩
    · rcases Operation.given?_eq_some gives with
        ⟨setting, rfl, same, -, rfl⟩ | ⟨assignment, earlier, rfl, -, -, declared, reads⟩
      · refine ⟨setting, ?_, .inl rfl⟩
        rw [Operation.declared?, if_pos same, Option.some_or]
      · exact ⟨earlier, declared, .inr ⟨assignment.value, reads⟩⟩
    · rw [Operation.undeclared_of_ungiven ungiven, Option.none_or]
      exact ih last

theorem valid_everywhere {history : List Operation}
    (last : (given key "" history).getLast? = some value) :
    ∃ current, declaration? key history = some current ∧
      (value = current.default ∨ current.Accepts value) := by
  obtain ⟨current, declared, valid⟩ := read_everywhere last
  exact ⟨current, declared, valid.imp_right fun ⟨_, reads⟩ => Setting.accepts_of_read reads⟩

/-- The value is the last that has been assigned in the context, and its setting has been declared
anew since. -/
def Outlived (key context : String) (value : Setting.Value) (history : List Operation) : Prop :=
  ∃ before assignment later earlier current,
    history = before ++ .set assignment :: later ∧ Setting.key assignment.name = key ∧
    assignment.context = context ∧ declaration? key before = some earlier ∧
    earlier.read assignment.value = .ok value ∧
    givenFrom key context (before ++ [.set assignment]) later = [] ∧
    declaration? key later = some current

-- What is given last in a single context has been assigned there.
theorem exists_assignment {history : List Operation} (single : context ≠ "")
    (last : (given key context history).getLast? = some value) :
    ∃ before assignment later earlier,
      history = before ++ .set assignment :: later ∧ Setting.key assignment.name = key ∧
      assignment.context = context ∧ declaration? key before = some earlier ∧
      earlier.read assignment.value = .ok value ∧
      givenFrom key context (before ++ [.set assignment]) later = [] := by
  induction history using List.reverseRecOn with
  | nil => cases last
  | append_singleton history operation ih =>
    rw [getLast?_given_concat, Option.or_eq_some_iff] at last
    rcases last with gives | ⟨ungiven, last⟩
    · rcases Operation.given?_eq_some gives with
        ⟨setting, -, -, everywhere, -⟩ | ⟨assignment, earlier, rfl, named, placed, declared, reads⟩
      · exact absurd everywhere single
      · exact ⟨history, assignment, [], earlier, rfl, named, placed, declared, reads, rfl⟩
    · obtain ⟨before, assignment, later, earlier, rfl, named, placed, declared, reads, silent⟩ :=
        ih last
      refine ⟨before, assignment, later ++ [operation], earlier, by simp, named, placed, declared,
        reads, ?_⟩
      rw [givenFrom_concat, silent, List.append_assoc, List.singleton_append, ungiven]
      rfl

/-- What a history gives in a single context is valid for its last declaration, or outlives the
declaration for which it was. -/
theorem valid_or_outlived {history : List Operation} (single : context ≠ "")
    (last : (given key context history).getLast? = some value) :
    ∃ current, declaration? key history = some current ∧
      (current.Accepts value ∨ Outlived key context value history) := by
  obtain ⟨before, assignment, later, earlier, same, named, placed, declared, reads, silent⟩ :=
    exists_assignment single last
  have across : declaration? key history =
      (declaration? key later).or (declaration? key before) := by
    rw [same, List.append_cons, declaration?_append, declaration?_concat]
    rfl
  rw [across]
  cases redeclared : declaration? key later with
  | none => exact ⟨earlier, declared, .inl (Setting.accepts_of_read reads)⟩
  | some current =>
    exact ⟨current, rfl, .inr ⟨before, assignment, later, earlier, current, same, named, placed,
      declared, reads, silent, redeclared⟩⟩

end

theorem mem_declared {settings : Settings} {key : String} {history : List Operation}
    {setting : Setting} (recalls : settings.Recalls key history)
    (declared : declaration? key history = some setting) : setting ∈ settings.declared := by
  rw [← recalls.setting] at declared
  exact mem_of_standing? declared

/-- A setting with a value is declared, and the value is its default or one that it accepts. The
exception is a value of a single context that was assigned before the setting was declared anew,
which has been valid for the declaration of its time only. -/
theorem value_valid_or_outlived :
    ∀ (history : List Operation) (context name : String) (value : Setting.Value),
      (after history).getIn? context name = some value →
        ∃ current ∈ (after history).declared,
          declaration? (Setting.key name) history = some current ∧
          (value = current.default ∨ current.Accepts value ∨
            context ≠ "" ∧ Outlived (Setting.key name) context value history) := by
  intro history context name value found
  have recalls := recalls_after history (Setting.key name)
  by_cases everywhere : (after history).get? name = some value
  · rw [get?_after] at everywhere
    obtain ⟨current, declared, valid⟩ := valid_everywhere everywhere
    exact ⟨current, mem_declared recalls declared, declared, valid.imp_right .inl⟩
  · have single : context ≠ "" := by
      rintro rfl
      exact everywhere ((getIn?_everywhere history name).symm.trans found)
    rw [getIn?_after history single, Option.or_eq_some_iff] at found
    obtain last | ⟨-, last⟩ := found
    · obtain ⟨current, declared, valid | outlived⟩ := valid_or_outlived single last
      · exact ⟨current, mem_declared recalls declared, declared, .inr (.inl valid)⟩
      · exact ⟨current, mem_declared recalls declared, declared, .inr (.inr ⟨single, outlived⟩)⟩
    · exact absurd last everywhere

theorem choice_outlives_declaration :
    let history : List Operation := [.declare ⟨"Style", .string ""⟩,
      .set ⟨"Style", "Solid", "player1"⟩, .declare ⟨"style", .combo "Normal" ["Normal", "Risky"]⟩]
    (after history).getIn? "player1" "Style" = some (.text "Solid") ∧
    Outlived (Setting.key "Style") "player1" (.text "Solid") history := by
  intro history
  have found : (after history).getIn? "player1" "Style" = some (.text "Solid") := by
    decide +kernel
  have last : declaration? (Setting.key "Style") history =
      some ⟨"style", .combo "Normal" ["Normal", "Risky"]⟩ := by
    decide +kernel
  obtain ⟨current, -, declared, valid⟩ :=
    value_valid_or_outlived history "player1" "Style" (.text "Solid") found
  obtain rfl := Option.some.inj (declared.symm.trans last)
  obtain default | accepted | ⟨-, outlived⟩ := valid
  · exact absurd default (by decide)
  · exact absurd (show "Solid" ∈ ["Normal", "Risky"] from accepted) (by decide)
  · exact ⟨found, outlived⟩

/-- A narrower declaration leaves the values of single contexts outside its range. -/
theorem value_outlives_declaration :
    ¬ ∀ (history : List Operation) (context name : String) (value : Setting.Value),
      (after history).getIn? context name = some value →
        ∃ current ∈ (after history).declared,
          declaration? (Setting.key name) history = some current ∧
          (value = current.default ∨ current.Accepts value) := by
  intro valid
  let history : List Operation := [.declare ⟨"Hash", .spin 16 1 1024⟩,
    .set ⟨"Hash", "64", "player1"⟩, .declare ⟨"hash", .spin 8 8 8⟩]
  have last : declaration? (Setting.key "Hash") history = some ⟨"hash", .spin 8 8 8⟩ := by
    decide +kernel
  obtain ⟨current, -, declared, default | accepted⟩ :=
    valid history "player1" "Hash" (.int 64) (by decide +kernel)
  · obtain rfl := Option.some.inj (declared.symm.trans last)
    exact absurd default (by decide)
  · obtain rfl := Option.some.inj (declared.symm.trans last)
    exact absurd (show (8 : Int64) ≤ 64 ∧ (64 : Int64) ≤ 8 from accepted) (by decide)

end Settings

end UciProtocol
