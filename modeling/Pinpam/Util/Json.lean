import Pinpam.Core.Slot

/-!
# Machine output

What `serde_json` writes for a result: enumerations are tagged externally, a unit
variant is its name, a newtype variant an object with one field. The texts inside a
`TpmError` stay what they were made from.
-/

namespace Pinpam
set_option autoImplicit false

inductive Json where
  | null
  | bool (b : Bool)
  | num (n : Nat)
  | str (s : Str)
  | text (t : TpmText)
  | obj (fields : List (Str × Json))

namespace Json

/-- An object with one field. -/
def tagged (name : String) (value : Json) : Json := .obj [(name.toList, value)]

/-- The value of a field. -/
def field (name : String) : Json → Option Json
  | .obj fields => (fields.find? fun f => f.1 = name.toList).map Prod.snd
  | _ => none

def asBool : Json → Option Bool
  | .bool b => some b
  | _ => none

def asNat : Json → Option Nat
  | .num n => some n
  | _ => none

def asUInt32 : Json → Option UInt32
  | .num n => if n < 2 ^ 32 then some (.ofNat n) else none
  | _ => none

def asStr : Json → Option Str
  | .str s => some s
  | _ => none

def asText : Json → Option TpmText
  | .text t => some t
  | _ => none

end Json

/-- A type as `serde` writes it. -/
class Serialize (α : Type) where
  toJson : α → Json

/-- A type as `serde` reads it. -/
class Deserialize (α : Type) where
  fromJson : Json → Option α

export Serialize (toJson)
export Deserialize (fromJson)

instance : Serialize Unit := ⟨fun _ => .null⟩

instance : Deserialize Unit where
  fromJson
    | .null => some ()
    | _ => none

instance : Serialize Str := ⟨.str⟩

instance {α : Type} [Serialize α] : Serialize (Option α) where
  toJson
    | some a => toJson a
    | none => .null

instance {α : Type} [Deserialize α] : Deserialize (Option α) where
  fromJson
    | .null => some none
    | j => (fromJson j).map some

instance : Serialize AttemptInfo where
  toJson info := .obj [("used".toList, .num info.used.toNat), ("limit".toList, .num info.limit.toNat)]

instance : Deserialize AttemptInfo where
  fromJson j := do
    let used ← (← j.field "used").asUInt32
    let limit ← (← j.field "limit").asUInt32
    pure ⟨used, limit⟩

instance : Serialize DeleteResult where
  toJson
    | .success => .str "Success".toList
    | .invalid locked => .tagged "Invalid" (.obj [("locked".toList, .bool locked)])
    | .lockedOut => .str "LockedOut".toList

instance : Deserialize DeleteResult where
  fromJson
    | .str s => if s = "Success".toList then some .success
      else if s = "LockedOut".toList then some .lockedOut else none
    | j => do
      let locked ← ((← j.field "Invalid").field "locked").bind Json.asBool
      pure (.invalid locked)

instance : Serialize PinError where
  toJson
    | .userNotFound => .str "UserNotFound".toList
    | .permissionDenied => .str "PermissionDenied".toList
    | .pinAlreadySet => .str "PinAlreadySet".toList
    | .noPinSet => .str "NoPinSet".toList
    | .pinsDontMatch => .str "PinsDontMatch".toList
    | .pinIsLocked => .str "PinIsLocked".toList
    | .incorrectPin locked => .tagged "IncorrectPin" (.obj [("locked".toList, .bool locked)])
    | .pinIsEmpty => .str "PinIsEmpty".toList
    | .pinContainsNonDigits => .str "PinContainsNonDigits".toList
    | .getUsernameForUidFailed uid => .tagged "GetUsernameForUidFailed" (.num uid.toNat)
    | .cannotDeletePin result => .tagged "CannotDeletePin" (toJson result)
    | .pinTooShort length limit =>
      .tagged "PinTooShort" (.obj [("length".toList, .num length), ("limit".toList, .num limit)])
    | .pinTooLong length limit =>
      .tagged "PinTooLong" (.obj [("length".toList, .num length), ("limit".toList, .num limit)])
    | .alreadyProvisioned uid => .tagged "AlreadyProvisioned" (.num uid.toNat)
    | .uidOverflow uid => .tagged "UidOverflow" (.num uid.toNat)
    | .notProvisioned uid => .tagged "NotProvisioned" (.num uid.toNat)
    | .tpmError text => .tagged "TpmError" (.text text)
    | .ioError text => .tagged "IoError" (.str text)
    | .termIoError text => .tagged "TermIoError" (.str text)
    | .pinutilOutputDecodeError text => .tagged "PinutilOutputDecodeError" (.str text)

/-- The variants without a value. -/
def PinError.units : List (Str × PinError) :=
  [("UserNotFound".toList, .userNotFound), ("PermissionDenied".toList, .permissionDenied),
    ("PinAlreadySet".toList, .pinAlreadySet), ("NoPinSet".toList, .noPinSet),
      ("PinsDontMatch".toList, .pinsDontMatch),
    ("PinIsLocked".toList, .pinIsLocked), ("PinIsEmpty".toList, .pinIsEmpty),
    ("PinContainsNonDigits".toList, .pinContainsNonDigits)]

/-- The variants with a value, by the reader of the value. -/
def PinError.variants : List (Str × (Json → Option PinError)) :=
  [("IncorrectPin".toList, fun j => (j.field "locked").bind Json.asBool |>.map .incorrectPin),
    ("GetUsernameForUidFailed".toList, fun j => j.asUInt32.map .getUsernameForUidFailed),
    ("CannotDeletePin".toList, fun j => (fromJson j).map .cannotDeletePin),
    ("PinTooShort".toList, fun j => do
      pure (.pinTooShort (← (← j.field "length").asNat) (← (← j.field "limit").asNat))),
    ("PinTooLong".toList, fun j => do
      pure (.pinTooLong (← (← j.field "length").asNat) (← (← j.field "limit").asNat))),
    ("AlreadyProvisioned".toList, fun j => j.asUInt32.map .alreadyProvisioned),
    ("UidOverflow".toList, fun j => j.asUInt32.map .uidOverflow),
    ("NotProvisioned".toList, fun j => j.asUInt32.map .notProvisioned),
    ("TpmError".toList, fun j => j.asText.map .tpmError),
    ("IoError".toList, fun j => j.asStr.map .ioError),
    ("TermIoError".toList, fun j => j.asStr.map .termIoError),
    ("PinutilOutputDecodeError".toList, fun j => j.asStr.map .pinutilOutputDecodeError)]

instance : Deserialize PinError where
  fromJson
    | .str s => (PinError.units.find? fun v => v.1 = s).map Prod.snd
    | .obj [(name, value)] => (PinError.variants.find? fun v => v.1 = name).bind fun v => v.2 value
    | _ => none

/-- A result: an object with the field `Ok` or `Err`. -/
instance {α : Type} [Serialize α] : Serialize (PinResult α) where
  toJson
    | .ok a => .tagged "Ok" (toJson a)
    | .error err => .tagged "Err" (toJson err)

instance {α : Type} [Deserialize α] : Deserialize (PinResult α) where
  fromJson
    | .obj [(name, value)] =>
      if name = "Ok".toList then (fromJson value).map .ok
      else if name = "Err".toList then (fromJson value).map .error
      else none
    | _ => none

/-! ## Reading back -/

theorem asUInt32_num (n : UInt32) : (Json.num n.toNat).asUInt32 = some n := by
  unfold Json.asUInt32
  dsimp only
  rw [if_pos n.toNat_lt, UInt32.ofNat_toNat]

@[simp] theorem fromJson_toJson_pinError (err : PinError) : fromJson (toJson err) = some err := by
  cases err with
  | getUsernameForUidFailed uid =>
    exact congrArg (Option.map PinError.getUsernameForUidFailed) (asUInt32_num uid)
  | alreadyProvisioned uid => exact congrArg (Option.map PinError.alreadyProvisioned) (asUInt32_num uid)
  | uidOverflow uid => exact congrArg (Option.map PinError.uidOverflow) (asUInt32_num uid)
  | notProvisioned uid => exact congrArg (Option.map PinError.notProvisioned) (asUInt32_num uid)
  | cannotDeletePin result => cases result <;> rfl
  | _ => rfl

theorem fromJson_toJson_unit (r : PinResult Unit) : fromJson (toJson r) = some r := by
  cases r with
  | ok u => rfl
  | error err => exact congrArg (Option.map Except.error) (fromJson_toJson_pinError err)

theorem fromJson_toJson_info (r : PinResult (Option AttemptInfo)) : fromJson (toJson r) = some r := by
  cases r with
  | error err => exact congrArg (Option.map Except.error) (fromJson_toJson_pinError err)
  | ok info =>
    cases info with
    | none => rfl
    | some info =>
      have read : (fromJson (toJson info) : Option AttemptInfo) = some info := by
        show ((Json.num info.used.toNat).asUInt32.bind fun used =>
          (Json.num info.limit.toNat).asUInt32.bind fun limit =>
            some (AttemptInfo.mk used limit)) = some info
        rw [asUInt32_num, asUInt32_num]
        rfl
      exact congrArg (Option.map Except.ok ∘ Option.map some) read

/-- The printed result is an `Ok`. -/
def Json.isOk (j : Json) : Bool := (j.field "Ok").isSome

theorem isOk_toJson {α : Type} [Serialize α] (r : PinResult α) : (toJson r).isOk = r.isOk := by
  cases r <;> rfl

end Pinpam
