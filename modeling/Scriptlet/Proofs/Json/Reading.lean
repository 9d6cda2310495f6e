import Scriptlet.Proofs.Json.Parts

/-!
# Reading JSON

A document is a scalar, or an array or object whose members stand between
brackets with commas between them.  `Denotes` says this for the parts of a
text, and the reader goes down into a bracket where one opens.  It finds what a
text denotes, and refuses a text that denotes nothing, so that a text denotes
one document at most.
-/

namespace Scriptlet.Json

/-! ## What parts denote -/

/-- A value, or what stands in an open array or object up to and including the closing bracket. -/
inductive Form where
  | value (document : Document)
  | items (items : List Document)
  | fields (fields : List (String × Document))

inductive Denotes : List Part → Form → Prop
  | scalar {document} : Denotes [.scalar document] (.value document)
  | emptyArray : Denotes [.mark .openArray, .mark .closeArray] (.value (.array []))
  | array {parts items} : Denotes parts (.items items) →
      Denotes (.mark .openArray :: parts) (.value (.array items))
  | emptyObject : Denotes [.mark .openObject, .mark .closeObject] (.value (.object []))
  | object {parts fields} : Denotes parts (.fields fields) →
      Denotes (.mark .openObject :: parts) (.value (.object fields))
  | lastItem {parts item} : Denotes parts (.value item) →
      Denotes (parts ++ [.mark .closeArray]) (.items [item])
  | item {parts item rest items} : Denotes parts (.value item) → Denotes rest (.items items) →
      Denotes (parts ++ .mark .comma :: rest) (.items (item :: items))
  | lastField {key parts value} : Denotes parts (.value value) →
      Denotes (.scalar (.text key) :: .mark .colon :: (parts ++ [.mark .closeObject]))
        (.fields [(key, value)])
  | field {key parts value rest fields} : Denotes parts (.value value) →
      Denotes rest (.fields fields) →
      Denotes (.scalar (.text key) :: .mark .colon :: (parts ++ .mark .comma :: rest))
        (.fields ((key, value) :: fields))

/-! ## The reader -/

mutual

/-- Reads a value and gives what is behind it.  `fuel` bounds the parts that are read. -/
def value? : (fuel : Nat) → List Part → Option (Document × List Part)
  | 0, _ => none
  | _ + 1, [] => none
  | _ + 1, .scalar document :: rest => some (document, rest)
  | _ + 1, .mark .openArray :: .mark .closeArray :: rest => some (.array [], rest)
  | fuel + 1, .mark .openArray :: rest =>
      (items? fuel rest).map fun (items, rest) => (.array items, rest)
  | _ + 1, .mark .openObject :: .mark .closeObject :: rest => some (.object [], rest)
  | fuel + 1, .mark .openObject :: rest =>
      (fields? fuel rest).map fun (fields, rest) => (.object fields, rest)
  | _ + 1, .mark _ :: _ => none

def items? : (fuel : Nat) → List Part → Option (List Document × List Part)
  | 0, _ => none
  | fuel + 1, parts =>
      match value? fuel parts with
      | some (item, .mark .closeArray :: rest) => some ([item], rest)
      | some (item, .mark .comma :: rest) =>
          (items? fuel rest).map fun (items, rest) => (item :: items, rest)
      | _ => none

def fields? : (fuel : Nat) → List Part → Option (List (String × Document) × List Part)
  | fuel + 1, .scalar (.text key) :: .mark .colon :: parts =>
      match value? fuel parts with
      | some (value, .mark .closeObject :: rest) => some ([(key, value)], rest)
      | some (value, .mark .comma :: rest) =>
          (fields? fuel rest).map fun (fields, rest) => ((key, value) :: fields, rest)
      | _ => none
  | _, _ => none

end

def Form.IsRead (fuel : Nat) (parts behind : List Part) : Form → Prop
  | .value document => value? fuel parts = some (document, behind)
  | .items members => items? fuel parts = some (members, behind)
  | .fields members => fields? fuel parts = some (members, behind)

/-! ## What is denoted is read -/

theorem Denotes.exists_cons {parts : List Part} {form : Form} (h : Denotes parts form) :
    ∃ part rest, parts = part :: rest ∧ part ≠ .mark .closeArray ∧ part ≠ .mark .closeObject := by
  induction h with
  | scalar | emptyArray | array | emptyObject | object | lastField | field =>
      exact ⟨_, _, rfl, by simp, by simp⟩
  | lastItem _ ih | item _ _ ih =>
      obtain ⟨part, rest, rfl, hpart⟩ := ih
      exact ⟨part, _, rfl, hpart⟩

private theorem Denotes.value?_openArray {parts : List Part} {form : Form} (h : Denotes parts form)
    (fuel : Nat) (behind : List Part) :
    value? (fuel + 1) (.mark .openArray :: (parts ++ behind)) =
      (items? fuel (parts ++ behind)).map fun (items, rest) => (.array items, rest) := by
  obtain ⟨part, rest, rfl, hpart, -⟩ := h.exists_cons
  rw [value?]
  rintro _ ⟨⟩
  contradiction

private theorem Denotes.value?_openObject {parts : List Part} {form : Form} (h : Denotes parts form)
    (fuel : Nat) (behind : List Part) :
    value? (fuel + 1) (.mark .openObject :: (parts ++ behind)) =
      (fields? fuel (parts ++ behind)).map fun (fields, rest) => (.object fields, rest) := by
  obtain ⟨part, rest, rfl, -, hpart⟩ := h.exists_cons
  rw [value?]
  rintro _ ⟨⟩
  contradiction

theorem Denotes.isRead {parts : List Part} {form : Form} (h : Denotes parts form)
    {fuel : Nat} (hfuel : parts.length ≤ fuel) (behind : List Part) :
    form.IsRead fuel (parts ++ behind) behind := by
  induction h generalizing fuel behind with
  | scalar | emptyArray | emptyObject =>
      obtain ⟨extra, rfl⟩ := Nat.exists_eq_add_of_lt hfuel
      simp [Form.IsRead, value?]
  | array hitems ih =>
      obtain ⟨extra, rfl⟩ := Nat.exists_eq_add_of_lt hfuel
      have hread := ih (Nat.le_add_right _ extra) behind
      simp only [Form.IsRead] at hread ⊢
      simp [hitems.value?_openArray, hread]
  | object hfields ih =>
      obtain ⟨extra, rfl⟩ := Nat.exists_eq_add_of_lt hfuel
      have hread := ih (Nat.le_add_right _ extra) behind
      simp only [Form.IsRead] at hread ⊢
      simp [hfields.value?_openObject, hread]
  | @lastItem parts _ _ ih =>
      obtain ⟨extra, rfl⟩ : ∃ extra, fuel = parts.length + extra + 1 :=
        Nat.exists_eq_add_of_lt (by simp at hfuel; omega)
      have hread := ih (Nat.le_add_right _ extra) (.mark .closeArray :: behind)
      simp only [Form.IsRead] at hread ⊢
      simp [items?, hread]
  | @item parts _ rest _ _ _ ihitem ihitems =>
      obtain ⟨extra, rfl⟩ : ∃ extra, fuel = parts.length + rest.length + extra + 1 :=
        Nat.exists_eq_add_of_lt (by simp at hfuel; omega)
      have hread := @ihitem (parts.length + rest.length + extra) (by omega)
        (.mark .comma :: (rest ++ behind))
      have hrest := @ihitems (parts.length + rest.length + extra) (by omega) behind
      simp only [Form.IsRead] at hread hrest ⊢
      simp [items?, hread, hrest]
  | @lastField _ parts _ _ ih =>
      obtain ⟨extra, rfl⟩ : ∃ extra, fuel = parts.length + extra + 1 :=
        Nat.exists_eq_add_of_lt (by simp at hfuel; omega)
      have hread := ih (Nat.le_add_right _ extra) (.mark .closeObject :: behind)
      simp only [Form.IsRead] at hread ⊢
      simp [fields?, hread]
  | @field _ parts _ rest _ _ _ ihvalue ihfields =>
      obtain ⟨extra, rfl⟩ : ∃ extra, fuel = parts.length + rest.length + extra + 1 :=
        Nat.exists_eq_add_of_lt (by simp at hfuel; omega)
      have hread := @ihvalue (parts.length + rest.length + extra) (by omega)
        (.mark .comma :: (rest ++ behind))
      have hrest := @ihfields (parts.length + rest.length + extra) (by omega) behind
      simp only [Form.IsRead] at hread hrest ⊢
      simp [fields?, hread, hrest]

/-! ## What is read is denoted -/

def Form.IsDenoted (parts behind : List Part) (form : Form) : Prop :=
  ∃ front, Denotes front form ∧ parts = front ++ behind

section Levels

variable {fuel : Nat} {parts behind : List Part}
  (ih : ∀ lower < fuel, ∀ (form : Form) (parts behind : List Part),
    form.IsRead lower parts behind → form.IsDenoted parts behind)

include ih

private theorem isDenoted_value {document : Document}
    (h : value? fuel parts = some (document, behind)) :
    (Form.value document).IsDenoted parts behind := by
  unfold value? at h
  split at h
  case h_3 =>
    obtain ⟨rfl, rfl⟩ := Prod.mk.inj (Option.some.inj h)
    exact ⟨_, .scalar, rfl⟩
  case h_4 =>
    obtain ⟨rfl, rfl⟩ := Prod.mk.inj (Option.some.inj h)
    exact ⟨_, .emptyArray, rfl⟩
  case h_5 =>
    obtain ⟨⟨items, tail⟩, hitems, heq⟩ := Option.map_eq_some_iff.mp h
    obtain ⟨rfl, rfl⟩ := Prod.mk.inj heq
    obtain ⟨front, hfront, rfl⟩ := ih _ (Nat.lt_succ_self _) (.items items) _ _ hitems
    exact ⟨_, .array hfront, rfl⟩
  case h_6 =>
    obtain ⟨rfl, rfl⟩ := Prod.mk.inj (Option.some.inj h)
    exact ⟨_, .emptyObject, rfl⟩
  case h_7 =>
    obtain ⟨⟨fields, tail⟩, hfields, heq⟩ := Option.map_eq_some_iff.mp h
    obtain ⟨rfl, rfl⟩ := Prod.mk.inj heq
    obtain ⟨front, hfront, rfl⟩ := ih _ (Nat.lt_succ_self _) (.fields fields) _ _ hfields
    exact ⟨_, .object hfront, rfl⟩
  all_goals contradiction

private theorem isDenoted_items {members : List Document}
    (h : items? fuel parts = some (members, behind)) :
    (Form.items members).IsDenoted parts behind := by
  unfold items? at h
  split at h
  · contradiction
  · split at h
    · next item rest hitem =>
        obtain ⟨rfl, rfl⟩ := Prod.mk.inj (Option.some.inj h)
        obtain ⟨front, hfront, rfl⟩ := ih _ (Nat.lt_succ_self _) (.value item) _ _ hitem
        exact ⟨_, .lastItem hfront, by simp⟩
    · next item rest hitem =>
        obtain ⟨⟨members, tail⟩, hmembers, heq⟩ := Option.map_eq_some_iff.mp h
        obtain ⟨rfl, rfl⟩ := Prod.mk.inj heq
        obtain ⟨front, hfront, rfl⟩ := ih _ (Nat.lt_succ_self _) (.value item) _ _ hitem
        obtain ⟨middle, hmiddle, rfl⟩ :=
          ih _ (Nat.lt_succ_self _) (.items members) _ _ hmembers
        exact ⟨_, .item hfront hmiddle, by simp⟩
    · contradiction

private theorem isDenoted_fields {members : List (String × Document)}
    (h : fields? fuel parts = some (members, behind)) :
    (Form.fields members).IsDenoted parts behind := by
  unfold fields? at h
  split at h
  · split at h
    · next value rest hvalue =>
        obtain ⟨rfl, rfl⟩ := Prod.mk.inj (Option.some.inj h)
        obtain ⟨front, hfront, rfl⟩ := ih _ (Nat.lt_succ_self _) (.value value) _ _ hvalue
        exact ⟨_, .lastField hfront, by simp⟩
    · next value rest hvalue =>
        obtain ⟨⟨members, tail⟩, hmembers, heq⟩ := Option.map_eq_some_iff.mp h
        obtain ⟨rfl, rfl⟩ := Prod.mk.inj heq
        obtain ⟨front, hfront, rfl⟩ := ih _ (Nat.lt_succ_self _) (.value value) _ _ hvalue
        obtain ⟨middle, hmiddle, rfl⟩ :=
          ih _ (Nat.lt_succ_self _) (.fields members) _ _ hmembers
        exact ⟨_, .field hfront hmiddle, by simp⟩
    · contradiction
  · contradiction

end Levels

theorem Form.IsRead.isDenoted {fuel : Nat} {form : Form} {parts behind : List Part}
    (h : form.IsRead fuel parts behind) : form.IsDenoted parts behind := by
  induction fuel using Nat.strongRecOn generalizing form parts behind with
  | ind fuel ih =>
      have ih : ∀ lower < fuel, ∀ (form : Form) (parts behind : List Part),
          form.IsRead lower parts behind → form.IsDenoted parts behind :=
        fun lower hlower _ _ _ hread => ih lower hlower hread
      cases form with
      | value document => exact isDenoted_value ih h
      | items members => exact isDenoted_items ih h
      | fields members => exact isDenoted_fields ih h

/-! ## Texts -/

/-- By the rules of JSON the text says what the document says. -/
def Reads (text : String) (document : Document) : Prop :=
  ∃ parts, Divides text.toList parts ∧ Denotes parts (.value document)

def ofParts? (parts : List Part) : Option Document :=
  match value? parts.length parts with
  | some (document, []) => some document
  | _ => none

def decode? (text : String) : Option Document :=
  (parts? text.toList).bind ofParts?

private theorem ofParts?_eq_some_iff {parts : List Part} {document : Document} :
    ofParts? parts = some document ↔ Denotes parts (.value document) := by
  constructor
  · intro h
    unfold ofParts? at h
    split at h
    · next d hvalue =>
        obtain rfl := Option.some.inj h
        obtain ⟨front, hfront, rfl⟩ := @Form.IsRead.isDenoted _ (.value d) _ _ hvalue
        rwa [List.append_nil]
    · contradiction
  · intro h
    have hread := h.isRead (Nat.le_refl _) []
    rw [List.append_nil] at hread
    simp only [Form.IsRead] at hread
    simp [ofParts?, hread]

theorem decode?_eq_some_iff {text : String} {document : Document} :
    decode? text = some document ↔ Reads text document := by
  simp only [decode?, Option.bind_eq_some_iff, parts?_eq_some_iff, ofParts?_eq_some_iff, Reads]

theorem Reads.unique {text : String} {a b : Document} (ha : Reads text a) (hb : Reads text b) :
    a = b := by
  rw [← decode?_eq_some_iff] at ha hb
  exact Option.some.inj (ha.symm.trans hb)

end Scriptlet.Json
