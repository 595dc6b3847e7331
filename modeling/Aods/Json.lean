-- JSON documents as the cJSON tree gives them to the handlers, with the member
-- lookup that they use. What text a document is printed to is left out.
import Aods.Machine

open machine

namespace util.json

/-- A cJSON item. A number is kept as its `valueint`. -/
inductive CJson where
  | null
  | bool (b : Bool)
  | number (valueint : Int)
  | string (valuestring : Bytes)
  | array (items : List CJson)
  | object (members : List (Bytes × CJson))

/-- The bytes of a text of the source. -/
def text (s : String) : Bytes := s.toList.map (fun c => UInt8.ofNat c.toNat)

/-- `tolower` in the C locale. -/
def tolower (b : UInt8) : UInt8 := if 65 ≤ b ∧ b ≤ 90 then b + 32 else b

/-- `cJSON_strcasecmp` finds no difference. -/
def sameName (s t : Bytes) : Bool := (cstr s).map tolower = (cstr t).map tolower

namespace CJson

/-- `cJSON_GetObjectItem`: the first member of that name, whatever its case. The items
of an array have no names. -/
def getObjectItem (j : CJson) (name : String) : Option CJson :=
  match j with
  | .object members => (members.find? (fun m => sameName m.1 (text name))).map (·.2)
  | _ => none

/-- A member that the code takes for granted. -/
def getMember (j : CJson) (name : String) : Except Fault CJson :=
  match j.getObjectItem name with
  | none => .error .null_pointer
  | some item => .ok item

/-- `item->valuestring`, used as a C string. Only a string has one. -/
def valuestring : CJson → Except Fault Bytes
  | .string s => .ok (cstr s)
  | _ => .error .null_pointer

/-- `item->valueint`. -/
def valueint : CJson → Int
  | .number n => n
  | .bool b => if b then 1 else 0
  | _ => 0

theorem getMember_some {j item : CJson} {name : String} (h : j.getObjectItem name = some item) :
    j.getMember name = .ok item := by
  rw [getMember, h]

theorem getMember_error {j : CJson} {name : String} {f : Fault} (h : j.getMember name = .error f) :
    f = .null_pointer := by
  unfold getMember at h
  cases hitem : j.getObjectItem name with
  | none =>
    rw [hitem] at h
    cases h
    rfl
  | some item =>
    rw [hitem] at h
    cases h

theorem valuestring_error {j : CJson} {f : Fault} (h : j.valuestring = .error f) :
    f = .null_pointer := by
  cases j with
  | string s => cases h
  | _ =>
    cases h
    rfl

end CJson

/-- An object with the members as they were added. -/
def obj (members : List (String × CJson)) : CJson :=
  .object (members.map (fun m => (text m.1, m.2)))

theorem getMember_same {name name' : String} {item : CJson} {members : List (String × CJson)}
    (h : sameName (text name') (text name) = true) :
    (obj ((name', item) :: members)).getMember name = .ok item := by
  simp [CJson.getMember, CJson.getObjectItem, obj, h]

theorem getMember_other {name name' : String} {item : CJson} {members : List (String × CJson)}
    (h : sameName (text name') (text name) = false) :
    (obj ((name', item) :: members)).getMember name = (obj members).getMember name := by
  simp [CJson.getMember, CJson.getObjectItem, obj, h]

end util.json
