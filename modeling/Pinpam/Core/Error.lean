import Pinpam.Core.Text
import Pinpam.Tpm.Exec

/-!
# Results and errors

`PinData` is the pair of signed words a slot is read as, `PinError` and the two
result types are what the operations of the manager answer.
-/

namespace Pinpam
set_option autoImplicit false

/-- The two words of a slot, as `c_int`. -/
structure PinData where
  pinCount : Int32
  pinLimit : Int32
  deriving DecidableEq, Repr

/-- Result of PIN verification. -/
inductive VerificationResult where
  | success (slot : PinData)
  | invalid (locked : Bool)
  | lockedOut
  deriving DecidableEq, Repr

/-- Result of authenticated PIN deletion. -/
inductive DeleteResult where
  | success
  | invalid (locked : Bool)
  | lockedOut
  deriving DecidableEq, Repr

mutual

inductive PinError where
  | userNotFound
  | permissionDenied
  | pinAlreadySet
  | noPinSet
  | pinsDontMatch
  | pinIsLocked
  | incorrectPin (locked : Bool)
  | pinIsEmpty
  | pinContainsNonDigits
  | getUsernameForUidFailed (uid : UInt32)
  | cannotDeletePin (result : DeleteResult)
  | pinTooShort (length limit : Nat)
  | pinTooLong (length limit : Nat)
  | alreadyProvisioned (uid : UInt32)
  | uidOverflow (uid : UInt32)
  | notProvisioned (uid : UInt32)
  | tpmError (text : TpmText)
  | ioError (text : Str)
  | termIoError (text : Str)
  | pinutilOutputDecodeError (text : Str)

/-- The texts a `TpmError` is made with, by their format string. -/
inductive TpmText where
  /-- `err.to_string()` -/
  | tss (err : TssError)
  /-- `unsupported PIN version tag: {}` -/
  | unsupportedVersion (version : UInt8)
  /-- `invalid PIN version tag payload size: {}` -/
  | payloadSize (len : Nat)
  /-- `failed to write PIN version tag: {}` -/
  | tagWrite (err : PinError)
  /-- `failed to write PIN version tag ({}) and failed to rollback PIN setup ({})` -/
  | tagWriteAndRollback (err cleanup : PinError)
  /-- a text of the locale, by its key -/
  | locale (key : String)

end

deriving instance DecidableEq for PinError, TpmText

/-- `impl From<TssError> for PinError`. -/
def PinError.ofTss (err : TssError) : PinError := .tpmError (.tss err)

abbrev PinResult (α : Type) := Except PinError α

end Pinpam
