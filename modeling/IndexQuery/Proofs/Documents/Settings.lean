import IndexQuery.Document.Settings
import IndexQuery.Proofs.Documents.Numbers
import IndexQuery.Proofs.Documents.Text
import IndexQuery.Proofs.Legible.Options

/-!
# Settings read back

The value of an option is written without its kind, and its kind is recovered from its form: no
string has the form of a number or of a boolean, whatever its text is, and only weights have the
form of an array, even if there are none.  So settings are read back from their document as they
were, except that a float may come back as an integer or not at all.

    ofJson? v.toJson = some v   if v is no float                             (ofJson?_toJson)
    (es.map optionToJson).mapM optionOfJson? = some es   if none is a float  (mapM_optionToJson)
    s.toJson is read back from its text                                       (written_toJson)
    parse s.toJson.toText = .ok s   if s is accepted and has no float         (parse_toText)
-/

namespace IndexQuery

open Json

/-! ## Lists -/

/-- What is read back one by one is read back as a list. -/
theorem Json.mapM_map {α β : Type} {write : α → β} {read : β → Option α} {as : List α}
    (h : ∀ a ∈ as, read (write a) = some a) : (as.map write).mapM read = some as := by
  induction as with
  | nil => rfl
  | cons a as ih =>
    have hrest := ih fun b hb => h b (List.mem_cons_of_mem a hb)
    rw [List.map_cons, List.mapM_cons, h a List.mem_cons_self, hrest]
    rfl

/-! ## Option values -/

namespace OptionValue

theorem weightOfJson?_weightToJson (w : String × Int64) :
    weightOfJson? (weightToJson w) = some w := by
  show ((Json.number (.ofInt w.2.toInt)).toInt64?.bind fun n => some (w.1, n)) = _
  rw [Numeral.toInt64?_ofInt]
  rfl

theorem ofJson?_toJson {v : OptionValue} (h : v.isFloat = false) : ofJson? v.toJson = some v := by
  cases v with
  | bool b => rfl
  | int n =>
    unfold toJson ofJson?
    dsimp only
    rw [Numeral.toInt64?_ofInt]
  | float x => cases h
  | string s => rfl
  | weights ws =>
    show ((ws.map weightToJson).mapM weightOfJson?).map weights = _
    rw [Json.mapM_map fun w _ => weightOfJson?_weightToJson w]
    rfl

theorem written_weightToJson (w : String × Int64) : (weightToJson w).Written := by
  refine .array fun v hv => ?_
  rcases List.mem_pair.mp hv with rfl | rfl
  · exact .string w.1
  · exact .integer w.2.toInt

theorem written_toJson {v : OptionValue} (h : v.isFloat = false) : v.toJson.Written := by
  cases v with
  | bool b => exact .bool b
  | int n => exact .integer n.toInt
  | float x => cases h
  | string s => exact .string s
  | weights ws =>
    refine .array fun w hw => ?_
    obtain ⟨weight, -, rfl⟩ := List.mem_map.mp hw
    exact written_weightToJson weight

end OptionValue

/-! ## Settings -/

namespace Settings

theorem optionOfJson?_optionToJson {e : String × OptionValue} (h : e.2.isFloat = false) :
    optionOfJson? (optionToJson e) = some e := by
  show ((OptionValue.ofJson? e.2.toJson).bind fun value => some (e.1, value)) = _
  rw [OptionValue.ofJson?_toJson h]
  rfl

theorem mapM_optionToJson {es : List (String × OptionValue)} (h : ∀ e ∈ es, e.2.isFloat = false) :
    (es.map optionToJson).mapM optionOfJson? = some es :=
  Json.mapM_map fun e he => optionOfJson?_optionToJson (h e he)

theorem limitOfJson?_limitToJson (n : UInt64) : limitOfJson? (limitToJson n) = some (some n) := by
  show (Json.number (.ofInt n.toNat)).toUInt64?.map some = _
  rw [Numeral.toUInt64?_ofInt]
  rfl

theorem ofJson?_toJson {s : Settings} (h : ∀ e ∈ s.defaultOptions, e.2.isFloat = false) :
    ofJson? s.toJson = some s := by
  obtain ⟨marker, keyAlias, defaultLimit, maxLimit, options⟩ := s
  have hmax : (limitToJson maxLimit).toUInt64? = some maxLimit := Numeral.toUInt64?_ofInt maxLimit
  have hoptions : optionsOfJson? (.array (options.map optionToJson)) = some options :=
    mapM_optionToJson h
  cases defaultLimit with
  | none =>
    simp [ofJson?, toJson, record?, parts, valuesOf, atMostOne, partOr, Json.text?, limitOfJson?,
      hmax, hoptions]
  | some limit =>
    simp [ofJson?, toJson, record?, parts, valuesOf, atMostOne, partOr, Json.text?,
      limitOfJson?_limitToJson, hmax, hoptions]

theorem written_toJson {s : Settings} (h : ∀ e ∈ s.defaultOptions, e.2.isFloat = false) :
    s.toJson.Written := by
  have hoptions : (Json.array (s.defaultOptions.map optionToJson)).Written := by
    refine .array fun o ho => ?_
    obtain ⟨e, he, rfl⟩ := List.mem_map.mp ho
    refine .array fun v hv => ?_
    rcases List.mem_pair.mp hv with rfl | rfl
    · exact .string e.1
    · exact OptionValue.written_toJson (h e he)
  have hmembers : ∀ limit : Json, limit.Written →
      Written (.object ([("attribute_marker", .string (some s.marker)),
        ("primary_key_alias", .string (some s.keyAlias)), ("default_limit", limit),
        ("max_limit", limitToJson s.maxLimit),
        ("default_options", .array (s.defaultOptions.map optionToJson))].map memberOf)) := by
    intro limit hlimit
    refine .object ?_
    simp only [List.forall_mem_cons, List.not_mem_nil, false_imp_iff, implies_true, and_true]
    exact ⟨.string _, .string _, hlimit, .integer _, hoptions⟩
  unfold toJson
  cases s.defaultLimit with
  | none => exact hmembers .null .null
  | some n => exact hmembers (limitToJson n) (.integer n.toNat)

/-- Settings that are accepted and have no float among their options are read back from the text of
their document. -/
theorem parse_toText {s : Settings} (hvalid : s.validate = .ok ())
    (h : ∀ e ∈ s.defaultOptions, e.2.isFloat = false) : parse s.toJson.toText = .ok s := by
  unfold parse
  rw [Json.ofText?_toText (written_toJson h), Option.bind_some, ofJson?_toJson h]
  show (s.validate >>= fun _ => _) = _
  rw [hvalid]
  rfl

/-- Options of every kind but floats, among them texts that look like other kinds. -/
def assorted : Settings where
  marker := "@"
  keyAlias := "pk"
  defaultLimit := some 20
  maxLimit := 1000
  defaultOptions := [("cutoff", .int (-5)), ("reverse_scan", .bool false),
    ("ranker", .string "-5"), ("comment", .string "false"), ("note", .string "\"[]\"\n\x01"),
    ("field_weights", .weights [("title", 10), ("title", -1)]), ("index_weights", .weights []),
    ("max_matches", .int 9223372036854775807)]

theorem assorted_read_back : assorted.validate = .ok () ∧
    (∀ e ∈ assorted.defaultOptions, e.2.isFloat = false) ∧
    parse assorted.toJson.toText = .ok assorted :=
  ⟨rfl, by decide, parse_toText rfl (by decide)⟩

end Settings

end IndexQuery
