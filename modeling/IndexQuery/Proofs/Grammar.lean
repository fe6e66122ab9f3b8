import IndexQuery.Proofs.Addressing

/-!
# The grammar of lookup keys

A key is a name, or a name, the separator and the name of an operator.  Neither name may be empty or
hold a separator, and a name that a separator follows does not end in an underscore.  Exactly the
texts of such keys are taken apart, each in one way; a text with two separators that do not overlap
is refused as nested, and every other text as lacking a name.

    Nested key ↔ 2 < (tokens key).length                                  (nested_iff_length)
    parse key = .ok k ↔ k.Proper ∧ k.text = key                     (parse_eq_ok_iff_text)
    parse key = .error e ↔ key is nested, or the text of no proper key, and e says which
                                                                        (parse_accepts_grammar)
-/

namespace IndexQuery.LookupKey

open Text

/-! ## Algorithm -/

/-- The key that names a field and an operator. -/
def text (k : LookupKey) : String := k.field ++ k.operator.elim "" (separator ++ ·)

/-- A name that can stand in a key. -/
def IsName (s : String) : Prop := s ≠ "" ∧ hasSeparator s = false

instance (s : String) : Decidable (IsName s) :=
  inferInstanceAs (Decidable (s ≠ "" ∧ hasSeparator s = false))

/-- Parts that make up a key: names, of which the one before a separator has no underscore at its
end. -/
def Proper : LookupKey → Prop
  | ⟨field, none⟩ => IsName field
  | ⟨field, some operator⟩ =>
    IsName field ∧ field.toList.getLast? ≠ some '_' ∧ IsName operator

/-- A text with two separators that do not overlap. -/
def Nested (key : String) : Prop := ∃ a b c, key = a ++ separator ++ b ++ separator ++ c

/-! ## Lemmas -/

@[simp] theorem text_name (field : String) : text ⟨field, none⟩ = field := String.append_empty

@[simp] theorem text_operator (field operator : String) :
    text ⟨field, some operator⟩ = field ++ separator ++ operator := (String.append_assoc ..).symm

theorem toList_append_separator (a b : String) :
    (a ++ separator ++ b).toList = a.toList ++ '_' :: '_' :: b.toList := by
  rw [String.toList_append, String.toList_append, List.append_assoc]
  rfl

/-- A separator in a text is one between two parts of it. -/
theorem hasSeparator_iff {s : String} : hasSeparator s = true ↔ ∃ a b, s = a ++ separator ++ b := by
  rw [hasSeparator, occursIn_eq_true_iff]
  constructor
  · rintro ⟨a, b, h⟩
    refine ⟨String.ofList a, String.ofList b, String.toList_inj.mp ?_⟩
    rw [← h, String.toList_append, String.toList_append, String.toList_ofList,
      String.toList_ofList]
  · rintro ⟨a, b, rfl⟩
    refine ⟨a.toList, b.toList, ?_⟩
    rw [String.toList_append, String.toList_append]

theorem length_tokens (key : String) : (tokens key).length = (pieces key.toList).length :=
  List.length_map _

/-- Each separator between parts of a text adds a token. -/
theorem length_tokens_lt (a b : String) :
    (tokens a).length < (tokens (a ++ separator ++ b)).length := by
  rw [length_tokens, length_tokens, toList_append_separator]
  exact length_pieces_append a.toList b.toList

theorem length_tokens_pos (key : String) : 0 < (tokens key).length :=
  List.length_pos_iff.mpr (tokens_ne_nil key)

/-- Tokens with separators between them make up the text again. -/
theorem toList_eq_of_tokens (key : String) :
    key.toList = ['_', '_'].intercalate ((tokens key).map String.toList) := by
  have hmap : (tokens key).map String.toList = pieces key.toList := by
    unfold tokens
    rw [List.map_map]
    simp [Function.comp_def]
  rw [hmap, intercalate_pieces]

/-- A text is nested if it has more than two tokens. -/
theorem nested_iff_length {key : String} : Nested key ↔ 2 < (tokens key).length := by
  constructor
  · rintro ⟨a, b, c, rfl⟩
    have ha := length_tokens_pos a
    have hb := length_tokens_lt a b
    have hc := length_tokens_lt (a ++ separator ++ b) c
    omega
  · intro h
    have hkey := toList_eq_of_tokens key
    match htokens : tokens key with
    | [] | [_] | [_, _] =>
      rw [htokens] at h
      simp at h
    | a :: b :: c :: rest =>
      refine ⟨a, b, String.ofList (['_', '_'].intercalate ((c :: rest).map String.toList)),
        String.toList_inj.mp ?_⟩
      rw [hkey, htokens, toList_append_separator, toList_append_separator, String.toList_ofList,
        List.map_cons, List.map_cons, List.map_cons, List.intercalate_cons_cons,
        List.intercalate_cons_cons]
      simp

theorem nested_of_hasSeparator {a b : String}
    (h : hasSeparator a = true ∨ hasSeparator b = true) : Nested (a ++ separator ++ b) := by
  rcases h with h | h
  · obtain ⟨x, y, rfl⟩ := hasSeparator_iff.mp h
    exact ⟨x, y, b, rfl⟩
  · obtain ⟨x, y, rfl⟩ := hasSeparator_iff.mp h
    exact ⟨a, x, y, by simp only [String.append_assoc]⟩

theorem tokens_singleton_iff {key field : String} :
    tokens key = [field] ↔ key = field ∧ hasSeparator key = false := by
  have hpieces : tokens key = [field] ↔ pieces key.toList = [field.toList] := by
    unfold tokens
    constructor
    · intro h
      obtain ⟨p, hp, rfl⟩ := List.map_eq_singleton_iff.mp h
      rw [hp, String.toList_ofList]
    · intro h
      rw [h, List.map_singleton, String.ofList_toList]
  rw [hpieces]
  constructor
  · intro h
    have hkey := intercalate_pieces key.toList
    rw [h, List.intercalate_singleton] at hkey
    rw [hkey] at h
    exact ⟨String.toList_inj.mp hkey.symm, pieces_eq_singleton_iff.mp h⟩
  · rintro ⟨rfl, h⟩
    exact pieces_eq_singleton_iff.mpr h

/-- Two tokens are what stands before the first separator and behind it, and there is no other. -/
theorem tokens_pair_iff {key field operator : String} : tokens key = [field, operator] ↔
    key = field ++ separator ++ operator ∧ Separable field ∧ hasSeparator operator = false := by
  constructor
  · intro h
    have hkey : key = field ++ separator ++ operator := by
      apply String.toList_inj.mp
      rw [toList_eq_of_tokens, h, toList_append_separator, List.map_cons, List.map_singleton,
        List.intercalate_cons_cons, List.intercalate_singleton]
      simp
    have hnested : ¬ Nested key := by
      rw [nested_iff_length, h]
      simp
    have hfield : hasSeparator field = false :=
      eq_false_of_ne_true fun hs => hnested (hkey ▸ nested_of_hasSeparator (.inl hs))
    have hoperator : hasSeparator operator = false :=
      eq_false_of_ne_true fun hs => hnested (hkey ▸ nested_of_hasSeparator (.inr hs))
    refine ⟨hkey, ⟨hfield, fun hlast => ?_⟩, hoperator⟩
    -- behind an underscore the separator would begin one character earlier
    obtain ⟨cs, hcs⟩ := List.getLast?_eq_some_iff.mp hlast
    have hpieces : pieces key.toList = cs :: pieces ('_' :: operator.toList) := by
      unfold hasSeparator at hfield
      rw [hcs] at hfield
      rw [hkey, toList_append_separator, hcs, pieces_underscore hfield]
    unfold tokens at h
    rw [hpieces, List.map_cons] at h
    have hhead := congrArg String.toList (List.cons.inj h).1
    rw [String.toList_ofList, hcs] at hhead
    simp at hhead
  · rintro ⟨rfl, hs, ho⟩
    unfold tokens
    rw [toList_append_separator, pieces_append hs.1 hs.2, pieces_eq_singleton_iff.mpr ho]
    simp

/-- Exactly the texts of proper keys are taken apart, and into what they were put together from. -/
theorem parse_eq_ok_iff_text {key : String} {k : LookupKey} :
    parse key = .ok k ↔ k.Proper ∧ k.text = key := by
  obtain ⟨field, operator⟩ := k
  rw [parse_eq_ok_iff]
  cases operator with
  | none =>
    rw [Option.toList_none, tokens_singleton_iff]
    constructor
    · rintro ⟨⟨rfl, hs⟩, hne⟩
      rw [tokens_singleton_iff.mpr ⟨rfl, hs⟩, List.mem_singleton] at hne
      exact ⟨⟨Ne.symm hne, hs⟩, text_name key⟩
    · rintro ⟨⟨hne, hs⟩, rfl⟩
      rw [text_name]
      refine ⟨⟨rfl, hs⟩, ?_⟩
      rw [tokens_singleton_iff.mpr ⟨rfl, hs⟩, List.mem_singleton]
      exact Ne.symm hne
  | some operator =>
    rw [Option.toList_some, tokens_pair_iff, text_operator]
    constructor
    · rintro ⟨⟨rfl, hs, ho⟩, hne⟩
      rw [tokens_pair_iff.mpr ⟨rfl, hs, ho⟩] at hne
      simp only [List.mem_cons, List.not_mem_nil, or_false, not_or] at hne
      exact ⟨⟨⟨Ne.symm hne.1, hs.1⟩, hs.2, Ne.symm hne.2, ho⟩, rfl⟩
    · rintro ⟨⟨⟨hf, hs⟩, hlast, ho, hso⟩, rfl⟩
      refine ⟨⟨rfl, ⟨hs, hlast⟩, hso⟩, ?_⟩
      rw [tokens_pair_iff.mpr ⟨rfl, ⟨hs, hlast⟩, hso⟩]
      simp [Ne.symm hf, Ne.symm ho]

/-- Nested keys are refused as such, and other texts that are no keys because a name is missing. -/
theorem parse_eq_error_iff_nested {key : String} {e : Error} : parse key = .error e ↔
    (Nested key ∧ e = .invalidLookup key "nested lookups not supported") ∨
      (¬ Nested key ∧ (∀ k : LookupKey, k.Proper → k.text ≠ key) ∧
        e = .invalidLookup key "empty field or operator") := by
  have hnone : (∀ k : LookupKey, k.Proper → k.text ≠ key) ↔ ∀ k, parse key ≠ .ok k := by
    refine forall_congr' fun k => ?_
    rw [Ne, Ne, parse_eq_ok_iff_text, not_and]
  rw [hnone]
  constructor
  · intro h
    have hrefused : ∀ k, parse key ≠ .ok k := by
      intro k hk
      cases h.symm.trans hk
    rcases parse_eq_error_iff.mp h with ⟨hlength, rfl⟩ | ⟨hlength, -, rfl⟩
    · exact .inl ⟨nested_iff_length.mpr hlength, rfl⟩
    · refine .inr ⟨fun hnested => ?_, hrefused, rfl⟩
      have := nested_iff_length.mp hnested
      omega
  · rintro (⟨hnested, rfl⟩ | ⟨hnested, hrefused, rfl⟩)
    · exact parse_eq_error_iff.mpr (.inl ⟨nested_iff_length.mp hnested, rfl⟩)
    · cases h : parse key with
      | ok k => exact absurd h (hrefused k)
      | error d =>
        rcases parse_eq_error_iff.mp h with ⟨hlength, -⟩ | ⟨-, -, rfl⟩
        · exact absurd (nested_iff_length.mpr hlength) hnested
        · rfl

/-- Keys are taken apart exactly as their grammar says.  A key without operator is a name; one with
an operator is two names around the separator, of which the first has no underscore at its end.
Every other text is refused, as nested if it has two separators that do not overlap; and no two keys
are taken apart alike. -/
theorem parse_accepts_grammar (key : String) :
    (∀ field, parse key = .ok ⟨field, none⟩ ↔
      key = field ∧ field ≠ "" ∧ hasSeparator key = false) ∧
    (∀ field operator, parse key = .ok ⟨field, some operator⟩ ↔
      key = field ++ separator ++ operator ∧ (field ≠ "" ∧ operator ≠ "") ∧
        (hasSeparator field = false ∧ field.toList.getLast? ≠ some '_') ∧
        hasSeparator operator = false) ∧
    (∀ e, parse key = .error e ↔
      (Nested key ∧ e = .invalidLookup key "nested lookups not supported") ∨
        (¬ Nested key ∧ (∀ k : LookupKey, k.Proper → k.text ≠ key) ∧
          e = .invalidLookup key "empty field or operator")) ∧
    ∀ k, parse key = .ok k → k.text = key ∧ ∀ other, parse other = .ok k → other = key := by
  refine ⟨fun field => ?_, fun field operator => ?_, fun e => parse_eq_error_iff_nested,
    fun k hk => ?_⟩
  · rw [parse_eq_ok_iff_text, text_name]
    constructor
    · rintro ⟨hname, rfl⟩
      exact ⟨rfl, hname⟩
    · rintro ⟨rfl, hname⟩
      exact ⟨hname, rfl⟩
  · rw [parse_eq_ok_iff_text, text_operator]
    constructor
    · rintro ⟨⟨⟨hf, hs⟩, hlast, ho, hso⟩, rfl⟩
      exact ⟨rfl, ⟨hf, ho⟩, ⟨hs, hlast⟩, hso⟩
    · rintro ⟨rfl, ⟨hf, ho⟩, ⟨hs, hlast⟩, hso⟩
      exact ⟨⟨⟨hf, hs⟩, hlast, ho, hso⟩, rfl⟩
  · have htext := (parse_eq_ok_iff_text.mp hk).2
    exact ⟨htext, fun other hother => (parse_eq_ok_iff_text.mp hother).2.symm.trans htext⟩

/-- Of three underscores the first two separate. -/
theorem parse_three_underscores : parse "a___b" = .ok ⟨"a", some "_b"⟩ ∧
    text ⟨"a", some "_b"⟩ = "a___b" ∧
    ∀ other, parse other = .ok ⟨"a", some "_b"⟩ → other = "a___b" := by
  have hkey : parse "a___b" = .ok ⟨"a", some "_b"⟩ := by decide
  obtain ⟨-, -, -, hunique⟩ := parse_accepts_grammar "a___b"
  exact ⟨hkey, hunique _ hkey⟩

end IndexQuery.LookupKey
