import FiberStacks.Proofs.Journal.Objects

/-!
# Journal lines as JSON

An entry written as JSON is one line without control characters, and a reader of JSON gets from it
what the entry holds: every text, number and truth value, with the fields in order and with
repetitions.
-/

namespace FiberStacks

namespace FieldValue

def document : FieldValue → Json.Value
  | text s => .string s
  | integer n => .number n
  | boolean b => .boolean b

theorem writes (v : FieldValue) : Json.Writes v.json v.document := by
  cases v with
  | text s => exact Json.writes_quote s
  | integer n => exact Json.writes_int n
  | boolean b => exact Json.writes_boolean b

end FieldValue

namespace Entry

/-- The fields of an entry as a JSON object. -/
def fieldsDocument (e : Entry) : Json.Value :=
  .object (e.fields.map fun (key, value) => (key, value.document))

/-- What an entry says, as a JSON object. It has no member for fields if there are none. -/
def document (e : Entry) : Json.Value :=
  .object (
    [("timestamp", .number e.timestamp), ("level", .string e.level.name),
      ("target", .string e.target.name), ("message", .string e.message)] ++
    if e.fields.isEmpty then [] else [("fields", e.fieldsDocument)])

def fieldMembers (e : Entry) : List Json.Member :=
  e.fields.map fun (key, value) => ⟨key, value.json, value.document⟩

def members (e : Entry) : List Json.Member :=
  [⟨"timestamp", toString e.timestamp, .number e.timestamp⟩,
    ⟨"level", Json.quote e.level.name, .string e.level.name⟩,
    ⟨"target", Json.quote e.target.name, .string e.target.name⟩,
    ⟨"message", Json.quote e.message, .string e.message⟩] ++
  if e.fields.isEmpty then [] else
    [⟨"fields", Json.writeObject e.fieldMembers, e.fieldsDocument⟩]

theorem map_write_fieldMembers (e : Entry) :
    e.fieldMembers.map Json.Member.write =
      e.fields.map fun (key, value) => Json.quote key ++ ":" ++ value.json :=
  List.map_map

theorem json_eq (e : Entry) : e.json = Json.writeObject e.members := by
  have htimestamp : Json.quote "timestamp" = "\"timestamp\"" := by decide
  have hlevel : Json.quote "level" = "\"level\"" := by decide
  have htarget : Json.quote "target" = "\"target\"" := by decide
  have hmessage : Json.quote "message" = "\"message\"" := by decide
  have hfields : Json.quote "fields" = "\"fields\"" := by decide
  apply String.toList_injective
  unfold json members Json.writeObject
  cases e.fields.isEmpty
  · simp [Json.Member.write, map_write_fieldMembers, htimestamp, hlevel, htarget, hmessage, hfields]
  · simp [Json.Member.write, htimestamp, hlevel, htarget, hmessage]

theorem document_eq (e : Entry) : e.document = .object (e.members.map Json.Member.document) := by
  unfold document members
  cases e.fields.isEmpty <;> rfl

theorem writes_fields (e : Entry) :
    Json.Writes (Json.writeObject e.fieldMembers) e.fieldsDocument := by
  have hfields : e.fieldsDocument = .object (e.fieldMembers.map Json.Member.document) := by
    rw [fieldsDocument, fieldMembers, List.map_map]
    rfl
  rw [hfields]
  refine Json.writes_object fun m hm => ?_
  obtain ⟨⟨key, value⟩, -, rfl⟩ := List.mem_map.mp hm
  exact value.writes

theorem writes_json (e : Entry) : Json.Writes e.json e.document := by
  rw [json_eq, document_eq]
  refine Json.writes_object fun m hm => ?_
  rcases List.mem_append.mp hm with hhead | hfields
  · simp only [List.mem_cons, List.not_mem_nil, or_false] at hhead
    rcases hhead with rfl | rfl | rfl | rfl
    · exact Json.writes_nat e.timestamp
    · exact Json.writes_quote e.level.name
    · exact Json.writes_quote e.target.name
    · exact Json.writes_quote e.message
  · cases hempty : e.fields.isEmpty
    · rw [hempty] at hfields
      rw [List.mem_singleton.mp hfields]
      exact e.writes_fields
    · rw [hempty] at hfields
      cases hfields

/-- An entry written as JSON is one line without control characters, and it is read back as what
the entry says: its time stamp, level, target and message, and exactly if it has fields, all of
them in order. -/
theorem read_json (e : Entry) :
    (∀ c ∈ e.json.toList, Json.isControl c = false) ∧ Json.read e.json = some e.document :=
  ⟨e.writes_json.clean, e.writes_json.read_eq⟩

end Entry

end FiberStacks
