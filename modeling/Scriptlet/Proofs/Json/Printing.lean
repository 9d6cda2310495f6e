import Scriptlet.Proofs.Json.Reading

/-!
# The text of a value reads as the value

Every value has a document, and its text says this document: it divides into
the parts that the value is made of, and these denote the document.  The line
breaks and tabs between the parts are white space, and a number ends where the
next mark or line break stands.
-/

namespace Scriptlet.Json

/-! ## Documents and parts of values -/

mutual

def document : Json → Document
  | .text value => .text value
  | .number value => .number (toString value)
  | .array items => .array (itemDocuments items)
  | .object fields => .object (fieldDocuments fields)

def itemDocuments : List Json → List Document
  | [] => []
  | item :: items => item.document :: itemDocuments items

def fieldDocuments : List (String × Json) → List (String × Document)
  | [] => []
  | (key, value) :: fields => (key, value.document) :: fieldDocuments fields

end

theorem itemDocuments_eq_map (items : List Json) :
    itemDocuments items = items.map document := by
  induction items with
  | nil => rfl
  | cons item items ih => rw [itemDocuments, List.map_cons, ih]

mutual

def parts : Json → List Part
  | .text value => [.scalar (.text value)]
  | .number value => [.scalar (.number (toString value))]
  | .array items => .mark .openArray :: (itemParts items ++ [.mark .closeArray])
  | .object fields => .mark .openObject :: (fieldParts fields ++ [.mark .closeObject])

def itemParts : List Json → List Part
  | [] => []
  | [item] => item.parts
  | item :: items => item.parts ++ .mark .comma :: itemParts items

def fieldParts : List (String × Json) → List Part
  | [] => []
  | [(key, value)] => .scalar (.text key) :: .mark .colon :: value.parts
  | (key, value) :: fields =>
      .scalar (.text key) :: .mark .colon :: (value.parts ++ .mark .comma :: fieldParts fields)

end

mutual

theorem denotes_parts : (json : Json) → Denotes json.parts (.value json.document)
  | .text _ => .scalar
  | .number _ => .scalar
  | .array [] => .emptyArray
  | .array (item :: items) => .array (denotes_itemParts (item :: items) (List.cons_ne_nil _ _))
  | .object [] => .emptyObject
  | .object (field :: fields) =>
      .object (denotes_fieldParts (field :: fields) (List.cons_ne_nil _ _))

theorem denotes_itemParts : (items : List Json) → items ≠ [] →
    Denotes (itemParts items ++ [.mark .closeArray]) (.items (itemDocuments items))
  | [item], _ => .lastItem (denotes_parts item)
  | item :: next :: items, _ => by
      have hitems := denotes_itemParts (next :: items) (List.cons_ne_nil _ _)
      simpa [itemParts, itemDocuments] using Denotes.item (denotes_parts item) hitems

theorem denotes_fieldParts : (fields : List (String × Json)) → fields ≠ [] →
    Denotes (fieldParts fields ++ [.mark .closeObject]) (.fields (fieldDocuments fields))
  | [(_, value)], _ => .lastField (denotes_parts value)
  | (key, value) :: next :: fields, _ => by
      have hfields := denotes_fieldParts (next :: fields) (List.cons_ne_nil _ _)
      have hfield := @Denotes.field key _ _ _ _ (denotes_parts value) hfields
      simpa [fieldParts, fieldDocuments] using hfield

end

/-! ## Numbers -/

private theorem head?_toDigits {n : Nat} (h : 0 < n) : (Nat.toDigits 10 n).head? ≠ some '0' := by
  induction n using Nat.strongRecOn with
  | ind n ih =>
      by_cases hlt : n < 10
      · rw [Nat.toDigits_of_lt_base hlt]
        simp
        omega
      · have hdigits := Nat.toDigits_of_base_le (by decide) (Nat.not_lt.mp hlt)
        rw [hdigits, List.head?_append, List.head?_eq_some_head Nat.toDigits_ne_nil,
          Option.some_or, ← List.head?_eq_some_head]
        exact ih (n / 10) (by omega) (by omega)

theorem isDigit_of_mem_toDigits {n : Nat} {c : Char} (h : c ∈ Nat.toDigits 10 n) :
    c.isDigit = true :=
  Nat.isDigit_of_mem_toDigits (by decide) (by decide) h

theorem isWhole_toDigits (n : Nat) : isWhole (Nat.toDigits 10 n) = true := by
  have hdigits : isDigits (Nat.toDigits 10 n) = true := by
    simpa [isDigits, Nat.toDigits_ne_nil] using fun c => isDigit_of_mem_toDigits
  cases n with
  | zero => rfl
  | succ n => simp [isWhole, hdigits, head?_toDigits]

private theorem isNumeral_of_isWhole {text : List Char} (h : isWhole text = true) :
    isNumeral text = true := by
  have hdigits : ∀ c ∈ text, c.isDigit = true := by
    simp only [isWhole, isDigits, Bool.and_eq_true, List.all_eq_true] at h
    exact h.1.2
  have hunsigned : isUnsigned text = true := by
    simp [isUnsigned, List.takeWhile_eq_self_iff.mpr hdigits, List.dropWhile_eq_nil_iff.mpr hdigits,
      h, isFraction, isExponent]
  unfold isNumeral
  split
  · next rest => exact absurd (hdigits '-' List.mem_cons_self) (by decide)
  · exact hunsigned

private theorem scalar?_of_isWhole {word : List Char} (h : isWhole word = true) :
    scalar? word = some (.number (String.ofList word)) := by
  fun_cases scalar? word with
  | case4 => rfl
  | case5 _ _ _ hnone => exact absurd (isNumeral_of_isWhole h) hnone
  | _ =>
      subst_vars
      contradiction

private theorem isBare_of_isDigit {c : Char} (h : c.isDigit = true) : isBare c = true := by
  refine isBare_iff.mpr ⟨?space, Mark.ofChar?_eq_none_iff.mpr ?mark, ?quote⟩
  case space =>
    by_contra hspace
    simp only [isSpace, Bool.not_eq_false, Bool.or_eq_true, beq_iff_eq] at hspace
    rcases hspace with ((rfl | rfl) | rfl) | rfl <;> contradiction
  case mark =>
    rintro mark rfl
    cases mark <;> contradiction
  case quote =>
    rintro rfl
    contradiction

/-! ## Division of the text -/

theorem Divides.mark {text : List Char} {parts : List Part} (mark : Mark)
    (h : Divides text parts) : Divides (mark.char :: text) (.mark mark :: parts) :=
  .part .mark h

theorem Divides.colon {text : List Char} {parts : List Part} (h : Divides text parts) :
    Divides (':' :: ' ' :: text) (.mark .colon :: parts) :=
  Divides.mark .colon (.space (by decide) h)

theorem Divides.newline {text : List Char} {parts : List Part} (h : Divides text parts)
    (level : Nat) : Divides (newline level ++ text) parts := by
  refine .space rfl ?_
  induction level with
  | zero => exact h
  | succ level ih => exact .space rfl ih

theorem Divides.quote {text : List Char} {parts : List Part} (h : Divides text parts)
    (value : String) : Divides (quote value ++ text) (.scalar (.text value) :: parts) := by
  have hstands : (Part.scalar (.text (String.ofList value.toList))).Stands
      ('"' :: (value.toList.flatMap escape ++ ['"'])) text := .text (spells_flatMap_escape _)
  rw [String.ofList_toList] at hstands
  exact .part hstands h

theorem Divides.number {text : List Char} {parts : List Part} (h : Divides text parts)
    (hend : text.head?.any isBare = false) (n : Nat) :
    Divides ((toString n).toList ++ text) (.scalar (.number (toString n)) :: parts) := by
  have hstands : (Part.scalar (.number (.ofList (Nat.toDigits 10 n)))).Stands
      (Nat.toDigits 10 n) text :=
    .bare (fun c hc => isBare_of_isDigit (isDigit_of_mem_toDigits hc)) hend
      (scalar?_of_isWhole (isWhole_toDigits n))
  rw [Nat.toString_eq_ofList_toDigits, String.toList_ofList]
  exact .part hstands h

mutual

theorem divides_chars : (level : Nat) → (json : Json) → {text : List Char} →
    {behind : List Part} → Divides text behind → text.head?.any isBare = false →
    Divides (json.chars level ++ text) (json.parts ++ behind)
  | _, .text value, _, _, h, _ => h.quote value
  | _, .number value, _, _, h, hend => h.number hend value
  | _, .array [], _, _, h, _ => (h.mark .closeArray).mark .openArray
  | level, .array (item :: items), _, _, h, _ => by
      have hclose := (h.mark .closeArray).newline level
      have hitems := (divides_itemChars (level + 1) (item :: items) hclose rfl).mark .openArray
      simpa [chars, parts, Mark.char] using hitems
  | _, .object [], _, _, h, _ => (h.mark .closeObject).mark .openObject
  | level, .object (field :: fields), _, _, h, _ => by
      have hclose := (h.mark .closeObject).newline level
      have hfields := (divides_fieldChars (level + 1) (field :: fields) hclose rfl).mark .openObject
      simpa [chars, parts, Mark.char] using hfields

theorem divides_itemChars : (level : Nat) → (items : List Json) → {text : List Char} →
    {behind : List Part} → Divides text behind → text.head?.any isBare = false →
    Divides (itemChars level items ++ text) (itemParts items ++ behind)
  | _, [], _, _, h, _ => h
  | level, [item], _, _, h, hend => by
      simpa [itemChars, itemParts] using (divides_chars level item h hend).newline level
  | level, item :: next :: items, _, _, h, hend => by
      have hnext := (divides_itemChars level (next :: items) h hend).mark .comma
      have hitem := (divides_chars level item hnext rfl).newline level
      simpa [itemChars, itemParts, Mark.char] using hitem

theorem divides_fieldChars : (level : Nat) → (fields : List (String × Json)) →
    {text : List Char} → {behind : List Part} → Divides text behind →
    text.head?.any isBare = false →
    Divides (fieldChars level fields ++ text) (fieldParts fields ++ behind)
  | _, [], _, _, h, _ => h
  | level, [(key, value)], _, _, h, hend => by
      have hvalue := (divides_chars level value h hend).colon
      simpa [fieldChars, fieldParts, Mark.char] using (hvalue.quote key).newline level
  | level, (key, value) :: next :: fields, _, _, h, hend => by
      have hnext := (divides_fieldChars level (next :: fields) h hend).mark .comma
      have hvalue := (divides_chars level value hnext rfl).colon
      simpa [fieldChars, fieldParts, Mark.char] using (hvalue.quote key).newline level

end

/-- The text of a value says what the value is. -/
theorem reads_render (json : Json) : Reads json.render json.document := by
  have hdivides := divides_chars 0 json .nil rfl
  simp only [List.append_nil] at hdivides
  exact ⟨json.parts, by rwa [render, String.toList_ofList], denotes_parts json⟩

end Scriptlet.Json
