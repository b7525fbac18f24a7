import UciProtocol.Proofs.Runs
import UciProtocol.Proofs.Searches
import UciProtocol.Proofs.Tables
import UciProtocol.Request.Record

/-! Requests read back from their records.

A record is read from an object just as the value whose own record is what the object says in the
fields of that type: with null for what is missing, and the start position in its short form. So it
does not matter what else the object says, in which order, and by which of two spellings; and a
request is what it was once it has been written and read back.
-/

set_option autoImplicit false

namespace UciProtocol

open Json

/-! ### Fields -/

namespace Field

inductive Kind where
  | flag
  | text
  | texts
  | limit
  | base
  deriving DecidableEq, Repr

/-- The values that a field can have; `none` is a field that is missing. -/
def Kind.Takes : Kind → Option Json → Prop
  | flag, value => ∃ b, value = some (bool b)
  | text, value => ∃ s, value = some (string s)
  | texts, value => ∃ items : List String, value = some (array (items.map string))
  | limit, value =>
    value = none ∨ value = some null ∨
      ∃ n, value = some (number n) ∧ Numeral.Range.int32.Contains n
  | base, value =>
    value = some (string "StartPos") ∨ value = some (object [("StartPos", null)]) ∨
      ∃ fen, value = some (object [("Fen", string fen)])

/-- The start position is written by its name alone. -/
def shortened : Json → Json
  | object [("StartPos", null)] => string "StartPos"
  | json => json

def Kind.written (kind : Kind) (value : Option Json) : Json :=
  match kind with
  | base => shortened (value.getD null)
  | flag | text | texts | limit => value.getD null

end Field

structure Field where
  name : String
  kind : Field.Kind
  deriving DecidableEq, Repr

/-- What an object says in some fields, as it is written. -/
def Json.restricted (schema : List Field) (fields : Table Json) : Json :=
  object (schema.map fun field => (field.name, field.kind.written (fields.get? field.name)))

def Assignment.schema : List Field := [⟨"name", .text⟩, ⟨"value", .text⟩, ⟨"context", .text⟩]

def Position.schema : List Field := [⟨"base", .base⟩, ⟨"moves", .texts⟩]

def Search.schema : List Field :=
  [⟨"infinite", .flag⟩, ⟨"ponder", .flag⟩, ⟨"searchmoves", .texts⟩] ++
    Limit.all.map (⟨·.keyword, .limit⟩)

/-- Records are written and read by their fields. An object has no two fields of one name. -/
structure Field.Governs {α : Type} (schema : List Field) (read : Json → Option α)
    (write : α → Json) : Prop where
  /-- What has been written is read back. -/
  read_write : ∀ value, read (write value) = some value
  /-- An object is read just if each field has a value that it can have. -/
  takes : ∀ fields : Table Json, (∃ value, read (object fields.entries) = some value) ↔
    ∀ field ∈ schema, field.kind.Takes (fields.get? field.name)
  /-- What has been read is written as what the object said in the fields. -/
  write_read : ∀ (fields : Table Json) value, read (object fields.entries) = some value →
    write value = restricted schema fields
  /-- Nothing counts but the fields. -/
  own : ∀ fields others : Table Json,
    (∀ field ∈ schema, fields.get? field.name = others.get? field.name) →
      read (object fields.entries) = read (object others.entries)
  /-- The order of the fields does not matter. -/
  order : ∀ fields others : Table Json, fields.entries.Perm others.entries →
    read (object fields.entries) = read (object others.entries)
  /-- A null is as good as no value. -/
  missing : ∀ (fields : Table Json) name, fields.get? name = none →
    read (object (fields.insert name null).entries) = read (object fields.entries)

namespace Field

variable {value : Option Json}

theorem written_some_null (kind : Kind) : kind.written (some null) = kind.written none := by
  cases kind <;> rfl

/-! Whatever its kind, a field is read just as the value that is written for it. -/

theorem bool?_eq_some_iff {b : Bool} :
    value.bind bool? = some b ↔ Kind.flag.written value = bool b := by
  cases value with
  | none => exact iff_of_false nofun nofun
  | some json => cases json <;> simp [bool?, Kind.written]

theorem string?_eq_some_iff {text : String} :
    value.bind string? = some text ↔ Kind.text.written value = string text := by
  cases value with
  | none => exact iff_of_false nofun nofun
  | some json => cases json <;> simp [string?, Kind.written]

theorem mapM_string?_eq_some_iff {items : List Json} {texts : List String} :
    items.mapM string? = some texts ↔ items = texts.map string := by
  induction items generalizing texts with
  | nil => simp [eq_comm]
  | cons item items ih =>
    rw [List.mapM_cons]
    simp only [Option.bind_eq_bind, Option.bind_eq_some_iff, ih, Option.pure_def,
      Option.some.injEq]
    constructor
    · rintro ⟨text, read, later, rfl, rfl⟩
      cases item <;> cases read
      rfl
    · intro same
      cases texts with
      | nil => cases same
      | cons text texts =>
        obtain ⟨rfl, rfl⟩ := List.cons.inj same
        exact ⟨text, rfl, texts, rfl, rfl⟩

theorem strings?_eq_some_iff {texts : List String} :
    value.bind strings? = some texts ↔ Kind.texts.written value = ofStrings texts := by
  cases value with
  | none => exact iff_of_false nofun nofun
  | some json => cases json <;> simp [strings?, ofStrings, Kind.written, mapM_string?_eq_some_iff]

theorem int32?_number_iff {n : Int} {m : Int32} :
    (number n).int32? = some m ↔ n = m.toInt := by
  rw [Json.int32?]
  split
  next inside =>
    have same : (Int32.ofInt n).toInt = n := Numeral.Range.Contains.toInt_int32 inside
    rw [Option.some.injEq]
    constructor
    · rintro rfl
      exact same.symm
    · rintro rfl
      exact Int32.ofInt_toInt m
  next outside =>
    refine iff_of_false nofun ?_
    rintro rfl
    exact outside (Numeral.Range.int32_contains m)

theorem limitOfJson?_eq_some_iff {fields : Table Json} {limit : Limit} {found : Option Int32} :
    Search.limitOfJson? (object fields.entries) limit = some found ↔
      Kind.limit.written (fields.get? limit.keyword) = ofInt32? found := by
  rw [Search.limitOfJson?, field?, ← Table.get?, Kind.written]
  cases fields.get? limit.keyword with
  | none => cases found <;> simp [ofInt32?]
  | some json =>
    cases json with
    | null => cases found <;> simp [ofInt32?]
    | number n => cases found <;> simp [ofInt32?, int32?_number_iff]
    | _ => cases found <;> simp [ofInt32?, int32?]

theorem base_eq_some_iff {base : Position.Base} :
    value.bind Position.Base.ofJson? = some base ↔ Kind.base.written value = base.toJson := by
  cases value with
  | none => cases base <;> exact iff_of_false nofun nofun
  | some json =>
    rw [Option.bind_some, Kind.written, Option.getD_some]
    unfold Position.Base.ofJson?
    split
    next => cases base <;> simp [shortened, Position.Base.toJson]
    next => cases base <;> simp [shortened, Position.Base.toJson]
    next => cases base <;> simp [shortened, Position.Base.toJson]
    next short long fen =>
      have own : shortened json = json := by
        unfold shortened
        split
        next => exact absurd rfl long
        next => rfl
      rw [own]
      cases base with
      | startPosition => exact iff_of_false nofun short
      | fen text => exact iff_of_false nofun (fen text)

/-! Whatever its kind, the values that a field can have are those that are written for a part. -/

theorem getD_null_eq_iff (json : Json) (present : json ≠ null) :
    value.getD null = json ↔ value = some json := by
  cases value with
  | none => exact iff_of_false present.symm nofun
  | some json => rw [Option.getD_some, Option.some.injEq]

theorem takes_flag_iff : Kind.flag.Takes value ↔ ∃ b, Kind.flag.written value = bool b :=
  exists_congr fun b => (getD_null_eq_iff (bool b) nofun).symm

theorem takes_text_iff : Kind.text.Takes value ↔ ∃ text, Kind.text.written value = string text :=
  exists_congr fun text => (getD_null_eq_iff (string text) nofun).symm

theorem takes_texts_iff :
    Kind.texts.Takes value ↔ ∃ texts, Kind.texts.written value = ofStrings texts :=
  exists_congr fun texts => (getD_null_eq_iff (ofStrings texts) nofun).symm

theorem takes_limit_iff :
    Kind.limit.Takes value ↔ ∃ found, Kind.limit.written value = ofInt32? found := by
  constructor
  · rintro (rfl | rfl | ⟨n, rfl, inside⟩)
    · exact ⟨none, rfl⟩
    · exact ⟨none, rfl⟩
    · exact ⟨some (.ofInt n), congrArg number inside.toInt_int32.symm⟩
  · rintro ⟨found, same⟩
    cases found with
    | none =>
      cases value with
      | none => exact .inl rfl
      | some json => exact .inr (.inl (congrArg some same))
    | some m =>
      have stated := (getD_null_eq_iff (number m.toInt) nofun).1 same
      exact .inr (.inr ⟨_, stated, Numeral.Range.int32_contains m⟩)

theorem takes_base_iff :
    Kind.base.Takes value ↔
      ∃ base : Position.Base, Kind.base.written value = base.toJson := by
  constructor
  · rintro (rfl | rfl | ⟨fen, rfl⟩)
    · exact ⟨.startPosition, rfl⟩
    · exact ⟨.startPosition, rfl⟩
    · exact ⟨.fen fen, rfl⟩
  · rintro ⟨base, same⟩
    obtain ⟨json, rfl, read⟩ := Option.bind_eq_some_iff.1 (base_eq_some_iff.2 same)
    unfold Position.Base.ofJson? at read
    split at read
    next => exact .inl rfl
    next => exact .inr (.inl rfl)
    next text => exact .inr (.inr ⟨text, rfl⟩)
    next => cases read

end Field

theorem then_eq_some_iff {α β : Type} {first : Option α} {next : α → Option β} {result : β} :
    (first >>= next) = some result ↔
      ∃ found, first = some found ∧ next found = some result :=
  Option.bind_eq_some_iff

/-! ### Records -/

section
variable {α : Type} {schema : List Field} {read : Json → Option α} {write : α → Json}

theorem Json.restricted_congr {fields others : Table Json}
    (same : ∀ field ∈ schema,
      field.kind.written (fields.get? field.name) =
        field.kind.written (others.get? field.name)) :
    restricted schema fields = restricted schema others := by
  unfold restricted
  congr 1
  exact List.map_congr_left fun field member => by rw [same field member]

-- What is read depends on what is written for the fields, and on nothing else.
theorem Field.Governs.of_law
    (law : ∀ (fields : Table Json) value,
      read (object fields.entries) = some value ↔ write value = restricted schema fields)
    (read_write : ∀ value, read (write value) = some value)
    (takes : ∀ fields : Table Json, (∃ value, write value = restricted schema fields) ↔
      ∀ field ∈ schema, field.kind.Takes (fields.get? field.name)) :
    Governs schema read write := by
  have equal {fields others : Table Json}
      (same : ∀ field ∈ schema,
        field.kind.written (fields.get? field.name) =
          field.kind.written (others.get? field.name)) :
      read (object fields.entries) = read (object others.entries) := by
    ext value
    rw [law, law, restricted_congr same]
  constructor
  case read_write => exact read_write
  case takes =>
    intro fields
    simp only [law]
    exact takes fields
  case write_read => exact fun fields value => (law fields value).1
  case own => exact fun fields others same => equal fun field member => by rw [same field member]
  case order =>
    intro fields others permuted
    exact equal fun field _ => by rw [Table.get?_eq_of_perm permuted]
  case missing =>
    intro fields name absent
    refine equal fun field _ => ?_
    rw [Table.get?_insert]
    split
    next same => rw [same, absent, written_some_null]
    next => rfl

end

theorem Limits.exists_get (find : Limit → Option Int32) :
    ∃ limits : Limits, ∀ limit, limits.get limit = find limit := by
  refine ⟨⟨find .wtime, find .btime, find .winc, find .binc, find .movestogo, find .depth,
    find .mate, find .nodes, find .movetime⟩, fun limit => ?_⟩
  cases limit <;> rfl

namespace Assignment

variable {fields : Table Json} {assignment : Assignment}

theorem toJson_eq_restricted_iff :
    assignment.toJson = restricted schema fields ↔
      Field.Kind.text.written (fields.get? "name") = string assignment.name ∧
      Field.Kind.text.written (fields.get? "value") = string assignment.value ∧
      Field.Kind.text.written (fields.get? "context") = string assignment.context := by
  simp [toJson, Assignment.fields, restricted, schema, eq_comm]

theorem ofJson?_eq_some_iff :
    ofJson? (object fields.entries) = some assignment ↔
      assignment.toJson = restricted schema fields := by
  rw [toJson_eq_restricted_iff]
  simp only [← Field.string?_eq_some_iff]
  unfold ofJson?
  simp only [then_eq_some_iff]
  constructor
  · rintro ⟨_, name, _, value, _, context, same⟩
    cases same
    exact ⟨name, value, context⟩
  · rintro ⟨name, value, context⟩
    exact ⟨_, name, _, value, _, context, rfl⟩

theorem governs : Field.Governs schema ofJson? toJson := by
  refine .of_law (fun _ _ => ofJson?_eq_some_iff) (fun _ => ?_) fun fields => ?_
  · exact ofJson?_eq_some_iff.2 (toJson_eq_restricted_iff.2 ⟨rfl, rfl, rfl⟩)
  · simp only [toJson_eq_restricted_iff]
    simp only [schema, List.forall_mem_cons, Field.takes_text_iff]
    constructor
    · rintro ⟨assignment, name, value, context⟩
      exact ⟨⟨_, name⟩, ⟨_, value⟩, ⟨_, context⟩, nofun⟩
    · rintro ⟨⟨name, named⟩, ⟨value, valued⟩, ⟨context, placed⟩, _⟩
      exact ⟨⟨name, value, context⟩, named, valued, placed⟩

end Assignment

namespace Position

variable {fields : Table Json} {position : Position}

theorem toJson_eq_restricted_iff :
    position.toJson = restricted schema fields ↔
      Field.Kind.base.written (fields.get? "base") = position.base.toJson ∧
      Field.Kind.texts.written (fields.get? "moves") = ofStrings position.moves := by
  simp [toJson, Position.fields, restricted, schema, eq_comm]

theorem ofJson?_eq_some_iff :
    ofJson? (object fields.entries) = some position ↔
      position.toJson = restricted schema fields := by
  rw [toJson_eq_restricted_iff, ← Field.base_eq_some_iff, ← Field.strings?_eq_some_iff]
  unfold ofJson?
  simp only [then_eq_some_iff]
  constructor
  · rintro ⟨_, base, _, moves, same⟩
    cases same
    exact ⟨base, moves⟩
  · rintro ⟨base, moves⟩
    exact ⟨_, base, _, moves, rfl⟩

theorem governs : Field.Governs schema ofJson? toJson := by
  refine .of_law (fun _ _ => ofJson?_eq_some_iff) (fun position => ?_) fun fields => ?_
  · have written : Field.Kind.base.written (some position.base.toJson) = position.base.toJson := by
      cases position.base <;> rfl
    exact ofJson?_eq_some_iff.2 (toJson_eq_restricted_iff.2 ⟨written, rfl⟩)
  · simp only [toJson_eq_restricted_iff]
    simp only [schema, List.forall_mem_cons, Field.takes_base_iff, Field.takes_texts_iff]
    constructor
    · rintro ⟨position, base, moves⟩
      exact ⟨⟨_, base⟩, ⟨_, moves⟩, nofun⟩
    · rintro ⟨⟨base, based⟩, ⟨moves, moved⟩, _⟩
      exact ⟨⟨base, moves⟩, based, moved⟩

end Position

namespace Search

variable {fields : Table Json} {search : Search}

theorem toJson_eq_restricted_iff :
    search.toJson = restricted schema fields ↔
      Field.Kind.flag.written (fields.get? "infinite") = bool search.infinite ∧
      Field.Kind.flag.written (fields.get? "ponder") = bool search.ponder ∧
      Field.Kind.texts.written (fields.get? "searchmoves") = ofStrings search.searchMoves ∧
      ∀ limit : Limit, Field.Kind.limit.written (fields.get? limit.keyword) =
        ofInt32? (search.limits.get limit) := by
  simp [toJson, Search.fields, restricted, schema, eq_comm, Limit.mem_all]

theorem ofJson?_eq_some_iff :
    ofJson? (object fields.entries) = some search ↔ search.toJson = restricted schema fields := by
  rw [toJson_eq_restricted_iff]
  simp only [← Field.bool?_eq_some_iff, ← Field.strings?_eq_some_iff,
    ← Field.limitOfJson?_eq_some_iff]
  unfold ofJson?
  simp only [then_eq_some_iff, Limits.build_eq_some_iff]
  constructor
  · rintro ⟨_, infinite, _, ponder, _, moves, _, limits, same⟩
    cases same
    exact ⟨infinite, ponder, moves, limits⟩
  · rintro ⟨infinite, ponder, moves, limits⟩
    exact ⟨_, infinite, _, ponder, _, moves, _, limits, rfl⟩

theorem governs : Field.Governs schema ofJson? toJson := by
  refine .of_law (fun _ _ => ofJson?_eq_some_iff) (fun search => ?_) fun fields => ?_
  · refine ofJson?_eq_some_iff.2 (toJson_eq_restricted_iff.2 ⟨rfl, rfl, rfl, ?_⟩)
    rintro (_ | _) <;> rfl
  · simp only [toJson_eq_restricted_iff]
    simp only [schema, List.forall_mem_append, List.forall_mem_cons, List.forall_mem_map,
      Field.takes_flag_iff, Field.takes_texts_iff, Field.takes_limit_iff]
    constructor
    · rintro ⟨search, infinite, ponder, moves, limits⟩
      exact ⟨⟨⟨_, infinite⟩, ⟨_, ponder⟩, ⟨_, moves⟩, nofun⟩, fun limit _ => ⟨_, limits limit⟩⟩
    · rintro ⟨⟨⟨infinite, held⟩, ⟨ponder, pondered⟩, ⟨moves, moved⟩, _⟩, limited⟩
      obtain ⟨limits, get⟩ := Limits.exists_get fun limit => (limited limit limit.mem_all).choose
      refine ⟨⟨infinite, ponder, moves, limits⟩, held, pondered, moved, fun limit => ?_⟩
      rw [get]
      exact (limited limit limit.mem_all).choose_spec

end Search

/-! ### Requests -/

namespace Position.Base

theorem ofJson?_toJson (base : Position.Base) : ofJson? base.toJson = some base := by
  cases base <;> rfl

end Position.Base

namespace Request

theorem ofJson?_record (request : Request) :
    ofJson? request.command request.record = some request := by
  cases request with
  | setOption assignment =>
    exact Option.map_eq_some_iff.2 ⟨_, Assignment.governs.read_write assignment, rfl⟩
  | position position =>
    exact Option.map_eq_some_iff.2 ⟨_, Position.governs.read_write position, rfl⟩
  | go search => exact Option.map_eq_some_iff.2 ⟨_, Search.governs.read_write search, rfl⟩
  | uci | isReady | newGame | stop | ponderHit | quit | xyzzy => rfl

/-- A record is read by its fields and written back as what it said in them, and a base as what it
was. So a line does, but for what is logged, what its request does when it has been written and
read back. -/
theorem record_stands_for_request :
    Field.Governs Search.schema Search.ofJson? Search.toJson ∧
    Field.Governs Position.schema Position.ofJson? Position.toJson ∧
    Field.Governs Assignment.schema Assignment.ofJson? Assignment.toJson ∧
    (∀ base : Position.Base, Position.Base.ofJson? base.toJson = some base) ∧
    ∀ {State : Type} (engine : Engine Unit State) (session : Session State) (line : String)
      (request : Request), ofLine line = .ok (some request) →
      ∃ again, ofJson? request.command request.record = some again ∧
        let step := session.carryOut engine again
        let handled := session.handle engine line
        step.session = handled.session ∧ step.outcome = handled.outcome ∧
        Event.calls step.events = Event.calls handled.events ∧
        Event.output step.events = Event.output handled.events ∧
        Event.effects step.events = Event.effects handled.events := by
  refine ⟨Search.governs, Position.governs, Assignment.governs, Position.Base.ofJson?_toJson, ?_⟩
  intro State engine session line request read
  obtain ⟨next, outcome⟩ := Session.handle_request engine session read
  obtain ⟨records, events⟩ := Session.handle_events engine session read
  have effects : Event.effects (session.handle engine line).events =
      Event.effects (session.carryOut engine request).events := by
    rw [events, Event.effects_records]
  refine ⟨request, ofJson?_record request, next.symm, outcome.symm, ?_, ?_, effects.symm⟩
  · rw [← Event.calls_effects, ← effects, Event.calls_effects]
  · rw [← Event.output_effects, ← effects, Event.output_effects]

/-- The moves may come before the base, a depth is no number of 33 bits, and a line does what its
record says. -/
theorem record_of_search_to_depth :
    Position.ofJson? (object [("moves", ofStrings ["e2e4"]), ("base", string "StartPos")]) =
        some { moves := ["e2e4"] } ∧
      (¬ ∃ search, Search.ofJson? (object [("infinite", bool false), ("ponder", bool false),
        ("searchmoves", array []), ("depth", number 4294967296)]) = some search) ∧
      ofLine "go depth 12" = .ok (some (.go { limits := { depth := some 12 } })) ∧
      ∃ again, ofJson? .go (Search.toJson { limits := { depth := some 12 } }) = some again ∧
        Event.calls (Session.carryOut Idle.engine ⟨{}, {}, .working⟩ again).events =
          [.order (.go { limits := { depth := some 12 } })] := by
  obtain ⟨searches, positions, -, -, lines⟩ := record_stands_for_request
  have read : ofLine "go depth 12" = .ok (some (.go { limits := { depth := some 12 } })) := by
    decide
  refine ⟨?_, ?_, read, ?_⟩
  · have ordered := positions.order
      ⟨[("moves", ofStrings ["e2e4"]), ("base", string "StartPos")], by decide⟩
      ⟨[("base", string "StartPos"), ("moves", ofStrings ["e2e4"])], by decide⟩ (.swap ..)
    exact ordered.trans (positions.read_write { moves := ["e2e4"] })
  · intro found
    have all := (searches.takes ⟨[("infinite", bool false), ("ponder", bool false),
      ("searchmoves", array []), ("depth", number 4294967296)], by decide⟩).1 found
    obtain absent | null | ⟨n, stated, inside⟩ :
        Field.Kind.limit.Takes (some (number 4294967296)) :=
      all ⟨"depth", .limit⟩ (by decide)
    · cases absent
    · cases null
    · cases stated
      exact absurd inside (by decide)
  · obtain ⟨again, restored, -, -, calls, -⟩ :=
      lines Idle.engine (⟨{}, {}, .working⟩ : Session (Idle Unit)) "go depth 12" _ read
    exact ⟨again, restored, calls.trans (by decide)⟩

end Request

end UciProtocol
