import Schemata.Check

/-!
# Records and their collections

A collection declares fields, each with a type, and says which of them a record has to have.  A
record fits when it is an object that meets every declaration, and one that does not fit is refused
for the first declaration that it breaks (`checkRecord_decides`).

The types are described beside the checks of `Schemata.Check`: `Json.Conforms` says which values
are of a type, and `Json.Culprit` which part of a value keeps it from being of a type.
-/

namespace Schemata

/-! ## Types -/

/-- A value is of a type that is no list. -/
inductive Json.Matches : String → Json → Prop
  | string (text : String) : Matches "string" (.string text)
  | number (value : Json.Number) : Matches "number" (.number value)
  | boolean (value : Bool) : Matches "boolean" (.bool value)
  /-- The program knows no values of the types that it has not built in. -/
  | other {type : String} (value : Json) (hs : type ≠ "string") (hn : type ≠ "number")
      (hb : type ≠ "boolean") : Matches type value

/-- A value is of a type. -/
inductive Json.Conforms : String → Json → Prop
  | list {item : String} {values : List Json} (h : ∀ value ∈ values, value.Matches item) :
      Conforms (item ++ "[]") (.array values)
  | scalar {type : String} {value : Json} (htype : ∀ item, type ≠ item ++ "[]")
      (h : value.Matches type) : Conforms type value

/-- The value is not of the type, and this part of it is why: the first misfit in an array where a
    list is asked for, otherwise the value itself. -/
inductive Json.Culprit : String → Json → Json → Prop
  | item {item : String} {before after : List Json} {misfit : Json}
      (hbefore : ∀ value ∈ before, value.Matches item) (h : ¬misfit.Matches item) :
      Culprit (item ++ "[]") (.array (before ++ misfit :: after)) misfit
  | list {item : String} {value : Json} (h : ∀ values, value ≠ .array values) :
      Culprit (item ++ "[]") value value
  | scalar {type : String} {value : Json} (htype : ∀ item, type ≠ item ++ "[]")
      (h : ¬value.Matches type) : Culprit type value value

/-- The type of a list is told by its brackets. -/
theorem itemType?_list (item : String) : itemType? (item ++ "[]") = some item := by
  simp [itemType?, String.toList_append]

/-- A type without brackets is that of no list. -/
theorem itemType?_eq_none {type : String} :
    itemType? type = none ↔ ∀ item, type ≠ item ++ "[]" := by
  constructor
  · rintro h item rfl
    rw [itemType?_list] at h
    cases h
  · intro h
    unfold itemType?
    apply if_neg
    rw [List.isSuffixOf_iff_suffix]
    rintro ⟨front, hfront⟩
    apply h (String.ofList front)
    apply String.toList_inj.1
    simp [String.toList_append, ← hfront]

/-- A value fits a type just when it is of it. -/
theorem fitsScalar_iff {type : String} {value : Json} :
    fitsScalar type value = true ↔ value.Matches type := by
  constructor
  · intro h
    by_cases hs : type = "string"
    · subst hs
      cases value with
      | string text => exact .string text
      | _ => exact absurd h Bool.false_ne_true
    by_cases hn : type = "number"
    · subst hn
      cases value with
      | number value => exact .number value
      | _ => exact absurd h Bool.false_ne_true
    by_cases hb : type = "boolean"
    · subst hb
      cases value with
      | bool value => exact .boolean value
      | _ => exact absurd h Bool.false_ne_true
    exact .other value hs hn hb
  · intro h
    cases h with
    | string | number | boolean => rfl
    | other value hs hn hb => simp [fitsScalar, hs, hn, hb]

instance (type : String) (value : Json) : Decidable (value.Matches type) :=
  decidable_of_iff _ fitsScalar_iff

/-- A value does not fit a type just when it is not of it. -/
theorem fitsScalar_eq_false {type : String} {value : Json} :
    fitsScalar type value = false ↔ ¬value.Matches type := by
  rw [← fitsScalar_iff, Bool.not_eq_true]

/-- There is no misfit just when all values are of the type. -/
private theorem find_misfit_eq_none {item : String} {values : List Json} :
    values.find? (!fitsScalar item ·) = none ↔ ∀ value ∈ values, value.Matches item := by
  simp [fitsScalar_iff]

/-- The misfit that is found is the first one. -/
private theorem find_misfit_eq_some {item : String} {values : List Json} {misfit : Json} :
    values.find? (!fitsScalar item ·) = some misfit ↔ ∃ before after,
      values = before ++ misfit :: after ∧ (∀ value ∈ before, value.Matches item) ∧
        ¬misfit.Matches item := by
  simp only [List.find?_eq_some_iff_append, Bool.not_eq_true', fitsScalar_eq_false,
    Bool.not_not, fitsScalar_iff]
  constructor
  · rintro ⟨h, before, after, rfl, hbefore⟩
    exact ⟨before, after, rfl, hbefore, h⟩
  · rintro ⟨before, after, rfl, hbefore, h⟩
    exact ⟨h, before, after, rfl, hbefore⟩

/-! ## The value of a field -/

/-- What is of the type passes the check. -/
theorem Json.Conforms.checkValue {field type : String} {value : Json} (h : value.Conforms type) :
    checkValue field type value = .ok () := by
  unfold Schemata.checkValue
  cases h with
  | list h => simp only [itemType?_list, find_misfit_eq_none.2 h]
  | scalar htype h => simp only [itemType?_eq_none.2 htype, if_pos (fitsScalar_iff.2 h)]

/-- What has a culprit fails the check, and the error names the type of the culprit. -/
theorem Json.Culprit.checkValue {field type : String} {value culprit : Json}
    (h : value.Culprit type culprit) :
    checkValue field type value = .error (.fieldType field type culprit.typeName) := by
  unfold Schemata.checkValue
  -- The misfit is an item of a list, no list where one is asked for, or no scalar of the type
  cases h with
  | @item item before after misfit hbefore h =>
    have hfind := find_misfit_eq_some.2 ⟨before, after, rfl, hbefore, h⟩
    simp only [itemType?_list, hfind]
  | list h =>
    rw [itemType?_list]
    cases value with
    | array values => exact absurd rfl (h values)
    | _ => rfl
  | scalar htype h =>
    simp only [itemType?_eq_none.2 htype]
    exact if_neg fun hfits => h (fitsScalar_iff.1 hfits)

/-- A value is of a type, or something in it is to blame. -/
theorem Json.conforms_or_culprit (type : String) (value : Json) :
    value.Conforms type ∨ ∃ culprit, value.Culprit type culprit := by
  by_cases htype : ∃ item, type = item ++ "[]"
  · obtain ⟨item, rfl⟩ := htype
    cases value with
    | array values =>
      cases hfind : values.find? (!fitsScalar item ·) with
      | none => exact .inl (.list (find_misfit_eq_none.1 hfind))
      | some misfit =>
        obtain ⟨before, after, rfl, hbefore, h⟩ := find_misfit_eq_some.1 hfind
        exact .inr ⟨misfit, .item hbefore h⟩
    | _ => exact .inr ⟨_, .list nofun⟩
  · rw [not_exists] at htype
    by_cases h : value.Matches type
    · exact .inl (.scalar htype h)
    · exact .inr ⟨value, .scalar htype h⟩

/-! ## Declarations -/

/-- What a collection declares of a field. -/
structure Declaration where
  name : String
  type : String
  required : Bool

/-- The declaration that a node is, if it declares a field. -/
def Node.declaration? (node : Node) : Option Declaration :=
  match node.shape with
  | .field name type required => some ⟨name, type, required⟩
  | _ => none

/-- The declarations of fields among the items of a collection, in their order. -/
def declarations (items : List Node) : List Declaration :=
  items.filterMap Node.declaration?

/-- The members of a record leave out the field, or say that it is null. -/
def Absent (members : List (String × Json)) (name : String) : Prop :=
  ∀ value, members.lookup name = some value → value = .null

namespace Declaration

/-- The members of a record meet a declaration. -/
inductive Met (members : List (String × Json)) (declaration : Declaration) : Prop
  | absent (h : Absent members declaration.name) (hrequired : declaration.required = false)
  | present {value : Json} (hlookup : members.lookup declaration.name = some value)
      (hnull : value ≠ .null) (h : value.Conforms declaration.type)

/-- The members of a record break a declaration, and this is the error about it. -/
inductive Broken (members : List (String × Json)) (declaration : Declaration) : CheckError → Prop
  | missing (h : Absent members declaration.name) (hrequired : declaration.required = true) :
      Broken members declaration (.missingField declaration.name)
  | misfit {value culprit : Json} (hlookup : members.lookup declaration.name = some value)
      (hnull : value ≠ .null) (h : value.Culprit declaration.type culprit) :
      Broken members declaration
        (.fieldType declaration.name declaration.type culprit.typeName)

/-- Checks the members of a record against a declaration. -/
def check (members : List (String × Json)) (declaration : Declaration) :
    Except CheckError Unit :=
  match members.lookup declaration.name with
  | none | some .null =>
    if declaration.required then .error (.missingField declaration.name) else .ok ()
  | some value => checkValue declaration.name declaration.type value

variable {members : List (String × Json)} {declaration : Declaration} {error : CheckError}

/-- The check of a field that is absent asks only whether it is required. -/
theorem check_of_absent (h : Absent members declaration.name) :
    declaration.check members =
      if declaration.required then .error (.missingField declaration.name) else .ok () := by
  unfold check
  split
  · rfl
  · rfl
  · next value hnull hlookup => exact absurd (h value hlookup) hnull

/-- The check of a field that is present is that of its value. -/
theorem check_of_present {value : Json} (hlookup : members.lookup declaration.name = some value)
    (hnull : value ≠ .null) :
    declaration.check members = checkValue declaration.name declaration.type value := by
  unfold check
  rw [hlookup]
  split
  · next h => cases h
  · next h => exact absurd (Option.some.inj h) hnull
  · next h => rw [Option.some.inj h]

/-- What is met passes the check. -/
theorem Met.check (h : declaration.Met members) : declaration.check members = .ok () := by
  cases h with
  | absent h hrequired => simp [check_of_absent h, hrequired]
  | present hlookup hnull h => rw [check_of_present hlookup hnull, h.checkValue]

/-- What is broken fails the check with its error. -/
theorem Broken.check (h : declaration.Broken members error) :
    declaration.check members = .error error := by
  cases h with
  | missing h hrequired => simp [check_of_absent h, hrequired]
  | misfit hlookup hnull h => rw [check_of_present hlookup hnull, h.checkValue]

/-- A declaration is met or broken. -/
theorem met_or_broken (members : List (String × Json)) (declaration : Declaration) :
    declaration.Met members ∨ ∃ error, declaration.Broken members error := by
  by_cases hpresent : ∃ value, members.lookup declaration.name = some value ∧ value ≠ .null
  · obtain ⟨value, hlookup, hnull⟩ := hpresent
    obtain h | ⟨culprit, h⟩ := Json.conforms_or_culprit declaration.type value
    · exact .inl (.present hlookup hnull h)
    · exact .inr ⟨_, .misfit hlookup hnull h⟩
  · have habsent : Absent members declaration.name := by
      intro value hlookup
      apply Classical.byContradiction
      exact fun hnull => hpresent ⟨value, hlookup, hnull⟩
    cases hrequired : declaration.required with
    | false => exact .inl (.absent habsent hrequired)
    | true => exact .inr ⟨_, .missing habsent hrequired⟩

/-- The check passes just the declarations that are met. -/
theorem check_eq_ok : declaration.check members = .ok () ↔ declaration.Met members := by
  constructor
  · intro h
    obtain hmet | ⟨error, hbroken⟩ := met_or_broken members declaration
    · exact hmet
    · rw [hbroken.check] at h
      cases h
  · exact Met.check

/-- The check fails on just the declarations that are broken, with the error about them. -/
theorem check_eq_error :
    declaration.check members = .error error ↔ declaration.Broken members error := by
  constructor
  · intro h
    obtain hmet | ⟨error', hbroken⟩ := met_or_broken members declaration
    · rw [hmet.check] at h
      cases h
    · rw [hbroken.check] at h
      rwa [← Except.error.inj h]
  · exact Broken.check

end Declaration

/-! ## Checks one after another -/

section

variable {α ε : Type} {check check' : α → Except ε Unit} {items : List α} {error : ε}

/-- Checks are made from the first item on. -/
private theorem forM_cons (check : α → Except ε Unit) (item : α) (items : List α) :
    (item :: items).forM check = (check item >>= fun _ => items.forM check) :=
  rfl

/-- Checks pass one after another just when each passes. -/
theorem forM_eq_ok : items.forM check = .ok () ↔ ∀ item ∈ items, check item = .ok () := by
  induction items with
  | nil => exact iff_of_true rfl (List.forall_mem_nil _)
  | cons item items ih =>
    rw [List.forall_mem_cons, ← ih, forM_cons]
    cases check item with
    | ok => exact (and_iff_right rfl).symm
    | error e => exact iff_of_false nofun nofun

/-- Checks one after another stop at the first that fails. -/
theorem forM_eq_error :
    items.forM check = .error error ↔
      ∃ before item after, items = before ++ item :: after ∧
        (∀ earlier ∈ before, check earlier = .ok ()) ∧ check item = .error error := by
  constructor
  · intro h
    -- Induction on the items: the first one fails, or the error comes from the items behind it
    induction items with
    | nil => cases h
    | cons item items ih =>
      rw [forM_cons] at h
      cases hitem : check item with
      | ok =>
        rw [hitem] at h
        obtain ⟨before, later, after, rfl, hbefore, hlater⟩ := ih h
        exact ⟨item :: before, later, after, rfl, List.forall_mem_cons.2 ⟨hitem, hbefore⟩,
          hlater⟩
      | error e =>
        rw [hitem] at h
        exact ⟨[], item, items, rfl, List.forall_mem_nil _, hitem.trans h⟩
  · rintro ⟨before, item, after, rfl, hbefore, hitem⟩
    induction before with
    | nil =>
      rw [List.nil_append, forM_cons, hitem]
      rfl
    | cons earlier before ih =>
      rw [List.forall_mem_cons] at hbefore
      rw [List.cons_append, forM_cons, hbefore.1]
      exact ih hbefore.2

/-- Checks that agree on every item agree on all. -/
theorem forM_congr (h : ∀ item ∈ items, check item = check' item) :
    items.forM check = items.forM check' := by
  induction items with
  | nil => rfl
  | cons item items ih =>
    rw [List.forall_mem_cons] at h
    rw [forM_cons, forM_cons, h.1, ih h.2]

end

/-! ## Records -/

/-- The error about the first among declarations, taken in their order, that is broken. -/
def FirstBroken (members : List (String × Json)) (ds : List Declaration) (error : CheckError) :
    Prop :=
  ∃ before d after, ds = before ++ d :: after ∧
    (∀ earlier ∈ before, earlier.Met members) ∧ d.Broken members error

section

variable {members : List (String × Json)} {ds : List Declaration} {error : CheckError}

/-- Declarations pass the check one after another just when each is met. -/
theorem forM_check_eq_ok :
    ds.forM (Declaration.check members) = .ok () ↔ ∀ d ∈ ds, d.Met members := by
  simp only [forM_eq_ok, Declaration.check_eq_ok]

/-- The check of one declaration after another stops at the first that is broken. -/
theorem forM_check_eq_error :
    ds.forM (Declaration.check members) = .error error ↔ FirstBroken members ds error := by
  simp only [forM_eq_error, Declaration.check_eq_ok, Declaration.check_eq_error, FirstBroken]

/-- The check of declarations depends on nothing but the fields that they declare. -/
theorem forM_check_congr {members' : List (String × Json)}
    (h : ∀ d ∈ ds, members.lookup d.name = members'.lookup d.name) :
    ds.forM (Declaration.check members) = ds.forM (Declaration.check members') := by
  apply forM_congr
  intro d hd
  unfold Declaration.check
  rw [h d hd]

end

/-- A field of a collection is checked as it is declared. -/
theorem checkField_of_declaration {members : List (String × Json)} {field : Node}
    {d : Declaration} (h : field.declaration? = some d) :
    checkField members field = d.check members := by
  unfold Node.declaration? at h
  split at h
  · next name type required hshape =>
    obtain rfl := Option.some.inj h
    cases hlookup : members.lookup name with
    | none => simp only [checkField, Declaration.check, hshape, hlookup]
    | some value => cases value <;> simp only [checkField, Declaration.check, hshape, hlookup]
  · cases h

/-- What is a field has a declaration. -/
private theorem Node.isField_eq (node : Node) : node.isField = node.declaration?.isSome := by
  unfold Node.isField Node.declaration?
  cases node.shape <;> rfl

/-- What is checked of a collection are its declarations. -/
theorem forM_checkField (members : List (String × Json)) (items : List Node) :
    (items.filter Node.isField).forM (checkField members) =
      (declarations items).forM (Declaration.check members) := by
  induction items with
  | nil => rfl
  | cons item items ih =>
    cases hd : item.declaration? with
    | some d =>
      have hfield : item.isField = true := by rw [Node.isField_eq, hd]; rfl
      rw [List.filter_cons_of_pos hfield, declarations, List.filterMap_cons_some hd, forM_cons,
        checkField_of_declaration hd, ih]
      rfl
    | none =>
      have hfield : ¬item.isField = true := by rw [Node.isField_eq, hd]; nofun
      rw [List.filter_cons_of_neg hfield, declarations, List.filterMap_cons_none hd,
        ← declarations, ih]

section

variable {collection : Node} {name : String} {items : List Node} {record : Json}

/-- An object is checked against the declarations of a collection. -/
theorem checkRecord_object (h : collection.shape = .collection name items)
    (members : List (String × Json)) :
    checkRecord collection (.object members) =
      (declarations items).forM (Declaration.check members) := by
  have hname : collection.collectionName? = some name := by simp [Node.collectionName?, h]
  have hfields : collection.fields = items.filter Node.isField := by
    simp [Node.fields, Node.items, h]
  rw [← forM_checkField, ← hfields]
  simp only [checkRecord, hname]

/-- What is no object is refused as such. -/
theorem checkRecord_of_ne (h : collection.shape = .collection name items)
    (hrecord : ∀ members, record ≠ .object members) :
    checkRecord collection record = .error (.notObject record.typeName) := by
  have hname : collection.collectionName? = some name := by simp [Node.collectionName?, h]
  unfold checkRecord
  rw [hname]
  cases record with
  | object members => exact absurd rfl (hrecord members)
  | _ => rfl

/-- What passes the check of a collection is an object that meets all its declarations. -/
theorem checkRecord_eq_ok (h : collection.shape = .collection name items) :
    checkRecord collection record = .ok () ↔
      ∃ members, record = .object members ∧ ∀ d ∈ declarations items, d.Met members := by
  cases record with
  | object members =>
    rw [checkRecord_object h, forM_check_eq_ok]
    simp only [Json.object.injEq, exists_eq_left']
  | _ =>
    rw [checkRecord_of_ne h (by simp)]
    simp

/-- What fails the check of a collection is no object, or breaks a declaration. -/
theorem checkRecord_eq_error (h : collection.shape = .collection name items)
    {error : CheckError} :
    checkRecord collection record = .error error ↔
      ((∀ members, record ≠ .object members) ∧ error = .notObject record.typeName) ∨
        ∃ members, record = .object members ∧ FirstBroken members (declarations items) error := by
  cases record with
  | object members =>
    rw [checkRecord_object h, forM_check_eq_error]
    simp
  | _ =>
    rw [checkRecord_of_ne h (by simp)]
    simp [eq_comm]

end

/-- A record fits a collection just when it is an object that meets every declaration of a field,
    and what does not fit is refused: what is no object as such, and an object for the first
    declaration that it breaks.  Nothing else in the collection matters, and no member of the
    record that is not declared. -/
theorem checkRecord_decides {collection : Node} {name : String} {items : List Node}
    (h : collection.shape = .collection name items) (record : Json) :
    (checkRecord collection record = .ok () ↔
      ∃ members, record = .object members ∧ ∀ d ∈ declarations items, d.Met members) ∧
    (∀ error, checkRecord collection record = .error error ↔
      ((∀ members, record ≠ .object members) ∧ error = .notObject record.typeName) ∨
        ∃ members, record = .object members ∧ FirstBroken members (declarations items) error) ∧
    (∀ members, record = .object members →
      ∀ collection' name' items' members', collection'.shape = .collection name' items' →
        declarations items' = declarations items →
        (∀ d ∈ declarations items, members'.lookup d.name = members.lookup d.name) →
          checkRecord collection' (.object members') = checkRecord collection record) := by
  refine ⟨checkRecord_eq_ok h, fun error => checkRecord_eq_error h, ?_⟩
  intro members hrecord collection' name' items' members' h' hitems hlookup
  subst hrecord
  rw [checkRecord_object h, checkRecord_object h', hitems]
  exact forM_check_congr hlookup

/-- A field that is declared twice, and a record that meets neither declaration. -/
theorem checkRecord_decides_twice :
    let texts : Node := ⟨.field "tags" "string[]" false, .start, 0, "", false, false, none⟩
    let numbers : Node := ⟨.field "tags" "number[]" true, .start, 0, "", false, false, none⟩
    let post : Node := ⟨.collection "Post" [texts, numbers], .start, 0, "", false, false, none⟩
    post.shape = .collection "Post" [texts, numbers] ∧
      checkRecord post (.object [("more", .null), ("tags", .array [.string "a", .null])]) =
        .error (.fieldType "tags" "string[]" "null") := by
  intro texts numbers post
  have h : post.shape = .collection "Post" [texts, numbers] := rfl
  apply And.intro h
  rw [(checkRecord_decides h _).2.1]
  right
  have hculprit : Json.Culprit ("string" ++ "[]") (.array ([.string "a"] ++ .null :: [])) .null :=
    .item (by decide) (by decide)
  have hbroken : (⟨"tags", "string[]", false⟩ : Declaration).Broken
      [("more", .null), ("tags", .array [.string "a", .null])]
      (.fieldType "tags" "string[]" (Json.typeName .null)) :=
    .misfit rfl Json.noConfusion hculprit
  exact ⟨_, rfl, [], _, _, rfl, List.forall_mem_nil _, hbroken⟩

end Schemata
