import Concord.Proofs.EnumValues

/-! A field of strings without a list of values takes any text, and none of its values is looked up.
The casing of a service is meant for the values of enums. But all that the code writes to such a
field as a literal, or compares it with, is held against the casing too. -/
namespace Concord

theorem Literal.scalarShape_quoted {text value : List Char} (h : quoted? text = some value)
    (shape : Shape) : scalarShape text shape =
      { shape with kind := .string, enumValues := [String.ofList value] } := by
  rw [scalarShape, h]

namespace Comparison

/-- A participant that has a string at a field which takes any string. -/
structure FreeText (f : FieldSchema) (p : Participant) : Prop where
  type : f.type = .string
  unlisted : f.enumValues = []
  kind : p.shape.kind = .string

/-- A value of a participant at a field: one of its shape, or one that it compares the field with. -/
def HasValue (f : FieldSchema) (p : Participant) (v : String) : Prop :=
  v ∈ p.shape.enumValues ∨ v ∈ comparedValues p (p.names f)

section Field

variable {x : Exchange} {f : FieldSchema} {path : String} {ps : List Participant} {p : Participant}
  {m : Mismatch}

theorem kind_of_enumMismatch? (hvalues : f.enumValues = [])
    (h : enumMismatch? x f p path = some m) : m.kind = .case := by
  simp only [enumMismatch?, hvalues, List.isEmpty_nil, if_true, List.find?_nil] at h
  obtain ⟨casing, -, h⟩ := Option.bind_eq_some_iff.mp h
  obtain ⟨value, -, rfl⟩ := Option.map_eq_some_iff.mp h
  rfl

theorem kind_of_unitMismatch? (h : unitMismatch? x f p ps path = some m) : m.kind = .unit := by
  obtain ⟨_, _, _, rfl⟩ := exists_disparity_of_unitMismatch? h
  rfl

theorem kind_of_formatMismatch? (h : formatMismatch? x f p ps path = some m) : m.kind = .format := by
  obtain ⟨_, _, _, rfl⟩ := exists_disparity_of_formatMismatch? h
  rfl

theorem kind_of_quantityMismatch? (h : quantityMismatch? x f path ps p = some m) :
    m.kind = .unit ∨ m.kind = .format := by
  unfold quantityMismatch? at h
  split at h
  · exact .inr (kind_of_formatMismatch? h)
  · rcases Option.or_eq_some_iff.mp h with h | ⟨-, h⟩
    · exact .inl (kind_of_unitMismatch? h)
    · exact .inr (kind_of_formatMismatch? h)

theorem kind_of_strictnessMismatch? (h : strictnessMismatch? x f p path = some m) :
    m.kind = .strictness := by
  obtain ⟨texts, -, rfl⟩ := Option.map_eq_some_iff.mp h
  rfl

theorem FreeText.kindMismatch?_eq_none (h : FreeText f p) : kindMismatch? x f p path = none := by
  have hfits : compatible f p.shape = true := by simp [compatible, h.type, h.kind]
  rw [kindMismatch?, if_pos hfits]

theorem FreeText.firstMismatch?_cases (h : FreeText f p) (hm : firstMismatch? x f path ps p = some m) :
    (enumMismatch? x f p path = some m ∧ m.kind = .case) ∨
      (enumMismatch? x f p path = none ∧ m.kind ∈ [MismatchKind.unit, .format, .strictness]) := by
  rw [firstMismatch?_eq, valueMismatch?, h.kindMismatch?_eq_none, Option.none_or] at hm
  rcases Option.or_eq_some_iff.mp hm with henum | ⟨hnone, hlater⟩
  · exact .inl ⟨henum, kind_of_enumMismatch? h.unlisted henum⟩
  · refine .inr ⟨hnone, ?_⟩
    rcases Option.or_eq_some_iff.mp hlater with hquantity | ⟨-, hstrictness⟩
    · rcases kind_of_quantityMismatch? hquantity with hkind | hkind <;> simp [hkind]
    · simp [kind_of_strictnessMismatch? hstrictness]

theorem FreeText.kind_ne_enum (h : FreeText f p) (hm : firstMismatch? x f path ps p = some m) :
    m.kind ≠ .enum := by
  rcases h.firstMismatch?_cases hm with ⟨-, hkind⟩ | ⟨-, hkind⟩
  · simp [hkind]
  · rintro hk
    simp [hk] at hkind

theorem FreeText.firstMismatch?_case_iff (h : FreeText f p) (x : Exchange) (path : String)
    (ps : List Participant) :
    (∃ m, firstMismatch? x f path ps p = some m ∧ m.kind = .case) ↔
      ∃ v, HasValue f p v ∧ AgainstCasing x.conventions f p v := by
  have henum : (enumMismatch? x f p path).isSome ↔
      ∃ v, HasValue f p v ∧ AgainstCasing x.conventions f p v := by
    simp [enumMismatch?_isSome_iff, h.unlisted, HasValue, and_comm]
  rw [← henum, Option.isSome_iff_exists]
  apply exists_congr
  intro m
  constructor
  · rintro ⟨hm, hkind⟩
    rcases h.firstMismatch?_cases hm with ⟨hfound, -⟩ | ⟨-, hlater⟩
    · exact hfound
    · simp [hkind] at hlater
  · intro hm
    apply And.intro _ (kind_of_enumMismatch? h.unlisted hm)
    rw [firstMismatch?_eq, valueMismatch?, h.kindMismatch?_eq_none, Option.none_or, hm, Option.some_or]

end Field

/-- A participant with a free text is never told that a value is not listed. It is told of the case of a
value exactly if its service has a casing and one of its values follows the casing in no form. A literal
that is written to the field is such a value. -/
theorem free_text_told_iff (conventions : Conventions) (contract : Contract) (e : Endpoint)
    (bindings : List Binding) (payload : PayloadKind) (fields : Payload) (path : String)
    (qs : List Participant) (f : FieldSchema) (p : Participant)
    (hfields : declaredFields? e payload = some fields)
    (hvisited : Visited fields (participants payload bindings) path qs f) (hp : p ∈ qs)
    (hfree : FreeText f p) :
    (∀ m, firstMismatch? (exchangeOf conventions contract e payload) f path qs p = some m →
      m.kind ≠ .enum) ∧
    ((∃ m ∈ compareEndpoint conventions contract e bindings, m.field = path ∧ m.kind = .case ∧
        firstMismatch? (exchangeOf conventions contract e payload) f path qs p = some m) ↔
      ∃ v, HasValue f p v ∧ AgainstCasing conventions f p v) ∧
    ∀ text value shape, Literal.quoted? text = some value →
      p.shape = Literal.scalarShape text shape → HasValue f p (String.ofList value) := by
  refine ⟨fun m hm => hfree.kind_ne_enum hm, ?_, ?_⟩
  · rw [← hfree.firstMismatch?_case_iff (exchangeOf conventions contract e payload) path qs]
    constructor
    · rintro ⟨m, -, -, hcase, hm⟩
      exact ⟨m, hm, hcase⟩
    · rintro ⟨m, hm, hcase⟩
      obtain ⟨hreported, hfield⟩ := hvisited.mem_of_firstMismatch? hfields hp hm
      exact ⟨m, hreported, hfield, hcase, hm⟩
  · intro text value shape hquoted hshape
    rw [Literal.scalarShape_quoted hquoted] at hshape
    exact .inl (by simp [hshape])

def orderNote : FieldSchema := ⟨"note", .string, none, none, none, [], false, [], none, none, false⟩

def noteEndpoint : Endpoint := { orderEndpoint with request := some [orderNote] }

def doorNote : Shape :=
  Literal.scalarShape "\"Leave it at the door\"".toList (.plain "note" .unknown default)

def noteWriter : Participant where
  binding := { orderBinding "web" .client .string with
    request := some { Shape.plain "" .object default with children := [doorNote] } }
  supplier := true
  shape := doorNote

def snakeCase : Conventions := { (default : Conventions) with enumCase := [("web", .snake)] }

theorem doorNote_freeText : FreeText orderNote noteWriter := ⟨rfl, rfl, by decide⟩

/-- A client that writes a note is told that it is not in snake case. -/
theorem door_note_told :
    FreeText orderNote noteWriter ∧
      ∃ m ∈ compareEndpoint snakeCase default noteEndpoint [noteWriter.binding], m.field = "note" ∧
        m.kind = .case ∧ firstMismatch? (exchangeOf snakeCase default noteEndpoint .request) orderNote
          "note" [noteWriter] noteWriter = some m := by
  refine ⟨doorNote_freeText, ?_⟩
  obtain ⟨-, htold, hliteral⟩ := free_text_told_iff snakeCase default noteEndpoint [noteWriter.binding]
    .request [orderNote] "note" [noteWriter] orderNote noteWriter rfl (.field List.mem_cons_self)
    List.mem_cons_self doorNote_freeText
  apply htold.mpr
  refine ⟨_, hliteral "\"Leave it at the door\"".toList "Leave it at the door".toList _ (by decide) rfl,
    .snake, rfl, ?_⟩
  intro w hw
  obtain rfl := List.mem_singleton.mp hw
  decide

end Comparison

end Concord
