import UnifiContainers.Release.MakeSeed

/-!
# Reading answers

The clients read seven things out of answers whose shape is up to the console. Five of them check
each value before they look into it; `devices` and `isApiAnswering` do not.
-/

namespace UnifiContainers.Clients

open OwnerSetup MakeSeed

/-- The exceptions a reader can let out. -/
inductive ProbeError where
  | recursionError
  | attributeError
  | typeError
  deriving DecidableEq, Repr

mutual

/-- How deep arrays and objects are nested. -/
def depth : Json → ℕ
  | .array items => depthItems items + 1
  | .object fields => depthFields fields + 1
  | .null | .bool _ | .number _ | .float _ | .string _ => 0

def depthItems : List Json → ℕ
  | [] => 0
  | item :: items => max (depth item) (depthItems items)

def depthFields : List (String × Json) → ℕ
  | [] => 0
  | (_, value) :: fields => max (depth value) (depthFields fields)

end

/-- `Response.json`, where the interpreter has `limit` levels of recursion left. -/
def load (limit : ℕ) (response : Response) : Except ProbeError Json :=
  match response.parsed with
  | none => .ok (.object [])
  | some body => if limit < depth body then .error .recursionError else .ok body

def truthyMember (value : Option Json) : Bool := (value.map Json.truthy).getD false

/-! ### The network application -/

def loginOkOf (body : Json) : Bool :=
  match rcOf body with
  | some (.string rc) => rc = "ok"
  | _ => false

def loginOk (limit : ℕ) (response : Response) : Except ProbeError Bool := do
  return loginOkOf (← load limit response)

def isUpOf (body : Json) : Bool := truthyMember (metaField "up" body)

def isUp (limit : ℕ) (response : Response) : Except ProbeError Bool := do
  return isUpOf (← load limit response)

/-- The body is asked for a member whatever it is. -/
def devicesOf : Json → Except ProbeError (List Json)
  | .object body =>
      match body.lookup "data" with
      | some (.array items) => .ok items
      | _ => .ok []
  | _ => .error .attributeError

def devices (limit : ℕ) (response : Response) : Except ProbeError (List Json) := do
  devicesOf (← load limit response)

/-! ### unifi-core -/

def isString (text : String) : Json → Bool
  | .string value => value = text
  | _ => false

/-- `"isSetup" in body` -/
def isApiAnsweringOf : Json → Except ProbeError Bool
  | .object body => .ok (body.lookup "isSetup").isSome
  | .array items => .ok (items.any (isString "isSetup"))
  | .string text => .ok ("isSetup".toList <:+: text.toList)
  | _ => .error .typeError

def isApiAnswering (limit : ℕ) (response : Response) : Except ProbeError Bool := do
  isApiAnsweringOf (← load limit response)

/-! ### ULP -/

def dataOf : Json → Option Json
  | .object body => body.lookup "data"
  | _ => none

def ownerIdOf (body : Json) : Option Json :=
  match dataOf body with
  | some (.object data) =>
      match data.lookup "owner" with
      | some (.object owner) => (owner.lookup "unique_id").filter Json.truthy
      | _ => none
  | _ => none

def ownerId (limit : ℕ) (response : Response) : Except ProbeError (Option Json) := do
  return ownerIdOf (← load limit response)

def isSetupOf (body : Json) : Bool :=
  match dataOf body with
  | some (.object data) => truthyMember (data.lookup "is_setuped")
  | _ => false

def isSetup (limit : ℕ) (response : Response) : Except ProbeError Bool := do
  return isSetupOf (← load limit response)

def mintedKeyOf (body : Json) : Option Json :=
  match dataOf body with
  | some (.object data) => (data.lookup "full_api_key").filter Json.truthy
  | _ => none

/-- `mint_key`, on the answer to its request. -/
def mintKey (limit : ℕ) (response : Response) : Except ProbeError (Option Json) := do
  return mintedKeyOf (← load limit response)

/-! ### Answers of any shape -/

/-- The body is an object that leads to a member along the names. -/
def HasMember : List String → Json → Prop
  | [], _ => True
  | name :: names, body =>
      ∃ fields value, body = .object fields ∧ fields.lookup name = some value ∧
        HasMember names value

/-- The answer's body is read and satisfies the property. -/
def Body (p : Json → Prop) (response : Response) : Prop :=
  ∃ body, response.parsed = some body ∧ p body

/-- A reader returns, and returns its negative answer unless `member` holds. -/
def Answers {α : Type} (negative : α) (member : Prop) (x : Except ProbeError α) : Prop :=
  ∃ a, x = .ok a ∧ (a ≠ negative → member)

/-- Every reader takes the answer. -/
structure ProbesSound (limit : ℕ) (response : Response) : Prop where
  loginOk : Answers false
    (Body (fun body => HasMember ["meta", "rc"] body ∨ HasMember ["rc"] body) response)
    (loginOk limit response)
  isUp : Answers false
    (Body (fun body => HasMember ["meta", "up"] body ∨ HasMember ["up"] body) response)
    (isUp limit response)
  devices : Answers [] (Body (HasMember ["data"]) response) (devices limit response)
  isApiAnswering : Answers false (Body (HasMember ["isSetup"]) response)
    (isApiAnswering limit response)
  ownerId : Answers none (Body (HasMember ["data", "owner", "unique_id"]) response)
    (ownerId limit response)
  isSetup : Answers false (Body (HasMember ["data", "is_setuped"]) response)
    (isSetup limit response)
  mintKey : Answers none (Body (HasMember ["data", "full_api_key"]) response)
    (mintKey limit response)

section

variable {α : Type} {limit : ℕ} {response : Response} {body : Json} {negative a : α}
  {member : Prop} {p : Json → Prop}

theorem answers_ok : Answers negative member (.ok a) ↔ (a ≠ negative → member) := by
  constructor
  · intro h
    obtain ⟨b, hb, hmember⟩ := h
    cases hb
    exact hmember
  · intro h
    exact ⟨a, rfl, h⟩

theorem not_answers_error (e : ProbeError) : ¬ Answers negative member (.error e) := by
  intro h
  obtain ⟨b, hb, -⟩ := h
  cases hb

/-- A reader that finds nothing in an empty object is as sound as what it does with a body that can
be loaded. -/
theorem answers_load {f : Json → Except ProbeError α} (hempty : f (.object []) = .ok negative) :
    Answers negative (Body p response) (load limit response >>= f) ↔
      ∀ body, response.parsed = some body →
        depth body ≤ limit ∧ Answers negative (p body) (f body) := by
  rw [load]
  cases hparsed : response.parsed with
  | none =>
    have hbind : ((.ok (.object []) : Except ProbeError Json) >>= f) = .ok negative := hempty
    simp only [hbind, answers_ok]
    constructor
    · intro _ body hbody
      cases hbody
    · exact fun _ hne => absurd rfl hne
  | some body =>
    have hbody : Body p response ↔ p body := by
      constructor
      · intro h
        obtain ⟨other, hother, hp⟩ := h
        rw [hparsed] at hother
        cases hother
        exact hp
      · exact fun hp => ⟨body, hparsed, hp⟩
    by_cases hdeep : limit < depth body
    · simp only [if_pos hdeep]
      constructor
      · exact fun h => absurd h (not_answers_error _)
      · exact fun h => absurd (h body rfl).1 (not_le.mpr hdeep)
    · simp only [if_neg hdeep, hbody]
      constructor
      · intro h other hother
        cases hother
        exact ⟨not_lt.mp hdeep, h⟩
      · exact fun h => (h body rfl).2

/-- A reader that takes every body is sound whenever the body can be loaded. -/
theorem answers_total {f : Json → α} (hempty : f (.object []) = negative)
    (h : ∀ body, f body ≠ negative → p body) :
    Answers negative (Body p response) (do return f (← load limit response)) ↔
      ∀ body, response.parsed = some body → depth body ≤ limit := by
  rw [answers_load (f := fun body => pure (f body)) (congrArg Except.ok hempty)]
  constructor
  · exact fun hall body hbody => (hall body hbody).1
  · exact fun hall body hbody => ⟨hall body hbody, answers_ok.mpr (h body)⟩

/-! ### The readers that check first -/

theorem hasMember_one {fields : List (String × Json)} {name : String}
    (h : (fields.lookup name).isSome) : HasMember [name] (.object fields) := by
  obtain ⟨value, hvalue⟩ := Option.isSome_iff_exists.mp h
  exact ⟨fields, value, rfl, hvalue, trivial⟩

theorem hasMember_metaField {name : String} (h : (metaField name body).isSome) :
    HasMember ["meta", name] body ∨ HasMember [name] body := by
  rw [metaField.eq_def] at h
  split at h
  · rename_i fields
    split at h
    · rename_i inner hmeta
      rw [Option.isSome_or, Bool.or_eq_true] at h
      rcases h with h | h
      · exact .inl ⟨fields, _, rfl, hmeta, hasMember_one h⟩
      · exact .inr (hasMember_one h)
    · exact .inr (hasMember_one h)
  · cases h

theorem isSome_of_truthyMember {value : Option Json} (h : truthyMember value ≠ false) :
    value.isSome := by
  cases value with
  | none => exact absurd rfl h
  | some value => rfl

theorem isSome_of_filter {value : Option Json} (h : value.filter Json.truthy ≠ none) :
    value.isSome := by
  cases value with
  | none => exact absurd rfl h
  | some value => rfl

theorem loginOkOf_sound (h : loginOkOf body ≠ false) :
    HasMember ["meta", "rc"] body ∨ HasMember ["rc"] body := by
  apply hasMember_metaField
  rw [loginOkOf] at h
  split at h
  · rename_i rc hrc
    have hfield : metaField "rc" body = some (.string rc) := hrc
    rw [hfield]
    rfl
  · exact absurd rfl h

theorem isUpOf_sound (h : isUpOf body ≠ false) :
    HasMember ["meta", "up"] body ∨ HasMember ["up"] body :=
  hasMember_metaField (isSome_of_truthyMember h)

theorem hasMember_data {names : List String} {data : Json} (h : dataOf body = some data)
    (hrest : HasMember names data) : HasMember ("data" :: names) body := by
  rw [dataOf.eq_def] at h
  split at h
  · rename_i fields
    exact ⟨fields, data, rfl, h, hrest⟩
  · cases h

theorem ownerIdOf_sound (h : ownerIdOf body ≠ none) :
    HasMember ["data", "owner", "unique_id"] body := by
  rw [ownerIdOf] at h
  split at h
  · rename_i data hdata
    split at h
    · rename_i owner howner
      exact hasMember_data hdata ⟨data, _, rfl, howner, hasMember_one (isSome_of_filter h)⟩
    · exact absurd rfl h
  · exact absurd rfl h

theorem isSetupOf_sound (h : isSetupOf body ≠ false) : HasMember ["data", "is_setuped"] body := by
  rw [isSetupOf] at h
  split at h
  · rename_i data hdata
    exact hasMember_data hdata (hasMember_one (isSome_of_truthyMember h))
  · exact absurd rfl h

theorem mintedKeyOf_sound (h : mintedKeyOf body ≠ none) :
    HasMember ["data", "full_api_key"] body := by
  rw [mintedKeyOf] at h
  split at h
  · rename_i data hdata
    exact hasMember_data hdata (hasMember_one (isSome_of_filter h))
  · exact absurd rfl h

/-! ### The readers that do not -/

def IsObject (body : Json) : Prop := ∃ fields, body = .object fields

/-- `devices` takes an object, and nothing else. -/
theorem devicesOf_sound :
    Answers [] (HasMember ["data"] body) (devicesOf body) ↔ IsObject body := by
  constructor
  · intro h
    cases body with
    | object fields => exact ⟨fields, rfl⟩
    | null | bool _ | number _ | float _ | string _ | array _ =>
      exact absurd h (not_answers_error _)
  · intro h
    obtain ⟨fields, rfl⟩ := h
    rw [devicesOf]
    split
    · rename_i items hdata
      exact answers_ok.mpr fun _ => ⟨fields, _, rfl, hdata, trivial⟩
    · exact answers_ok.mpr fun hne => absurd rfl hne

/-- `is_api_answering` takes an object, and those arrays and strings that do not hold the name. -/
theorem isApiAnsweringOf_sound :
    Answers false (HasMember ["isSetup"] body) (isApiAnsweringOf body) ↔
      IsObject body ∨ (∃ items, body = .array items ∧ items.any (isString "isSetup") = false) ∨
        ∃ text, body = .string text ∧ ¬ "isSetup".toList <:+: text.toList := by
  cases body with
  | null | bool _ | number _ | float _ =>
    rw [isApiAnsweringOf]
    · simp [not_answers_error, IsObject]
    all_goals
      intros
      exact Json.noConfusion ‹_›
  | object fields =>
    rw [isApiAnsweringOf, answers_ok]
    exact ⟨fun _ => .inl ⟨fields, rfl⟩, fun _ h => hasMember_one (by simpa using h)⟩
  | array items =>
    rw [isApiAnsweringOf, answers_ok]
    simp [IsObject, HasMember]
  | string text =>
    rw [isApiAnsweringOf, answers_ok]
    generalize "isSetup".toList = name
    simp [IsObject, HasMember]

end

end UnifiContainers.Clients
