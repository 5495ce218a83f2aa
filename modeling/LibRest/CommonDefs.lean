import Mathlib.Data.List.TakeWhile

/-!
# The data that clients hand to the library

`CommonDefs.h`: the statuses, the content types, `RestData` and `Certificate`; and the payload of
the request queue (`CurlHttpWrapper.h`).
-/

namespace LibRest

/-- A `std::string`: its bytes. -/
abbrev Str := List UInt8

/-- The bytes of a string literal. -/
def str (s : String) : Str := s.toByteArray.data.toList

/-- `c_str()`, as a C function reads it: up to the first zero byte. -/
def cStr (s : Str) : Str := s.takeWhile (· ≠ 0)

/-- A text without a zero byte is its own C string. -/
theorem cStr_eq_self_iff {s : Str} : cStr s = s ↔ 0 ∉ s := by
  rw [cStr, List.takeWhile_eq_self_iff]
  simp only [decide_eq_true_eq]
  exact ⟨fun h hm => h 0 hm rfl, fun h x hx e => h (e ▸ hx)⟩

/-- `rest::HTTP_STATUS`. -/
inductive HttpStatus where
  | success
  | failure
  | invalid
  deriving DecidableEq, Repr

/-- `rest::REST_CONTENT_TYPE`. -/
inductive RestContentType where
  | typeJson
  | typeWwwForm
  deriving DecidableEq, Repr

/-- The value of the enumerator, to which `REST_CONTENT_TYPE` converts. -/
def RestContentType.toInt : RestContentType → Int
  | .typeJson => 0
  | .typeWwwForm => 1

/-- `rest::RestData`. -/
structure RestData where
  restContent : Str
  type : RestContentType
  deriving DecidableEq, Repr

def RestData.getContent (d : RestData) : Str := d.restContent

def RestData.getType (d : RestData) : RestContentType := d.type

/-- `rest::Certificate`. -/
structure Certificate where
  strPassword : Str
  strCertificate : Str
  strCAcertificate : Str
  strKeyName : Str
  strKeyType : Str
  deriving DecidableEq, Repr

/-- `Certificate()`: every field is the empty string. -/
def Certificate.empty : Certificate := ⟨[], [], [], [], []⟩

/-- No field has a zero byte. -/
def Certificate.ZeroFree (cert : Certificate) : Prop :=
  0 ∉ cert.strPassword ∧ 0 ∉ cert.strCertificate ∧ 0 ∉ cert.strCAcertificate ∧
    0 ∉ cert.strKeyName ∧ 0 ∉ cert.strKeyType

instance (cert : Certificate) : Decidable cert.ZeroFree :=
  inferInstanceAs (Decidable (_ ∧ _ ∧ _ ∧ _ ∧ _))

/-- `CurlHttpWrapper::HTTP_METHOD`. -/
inductive HttpMethod where
  | get
  | post
  | put
  | delete
  deriving DecidableEq, Repr

/-- `CurlHttpWrapper::payload`. The `unique_ptr` is `none` when it is null. -/
structure Payload where
  method : HttpMethod
  url : Str
  restData : Option RestData
  deriving DecidableEq, Repr

end LibRest
