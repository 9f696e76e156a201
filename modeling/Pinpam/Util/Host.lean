import Pinpam.Effect.Sum
import Pinpam.Core.Manager
import Pinpam.Util.Json

/-!
# The process of pinutil

What a run is given (`Env`), what it says to a human (`Text`, by locale key) and what
it does besides the TPM commands of the manager: reading a line, writing, and the
operations on the master key.
-/

namespace Pinpam
set_option autoImplicit false
open Pinpam.Effect Pinpam.Effect.Fallible

/-- The credentials of the process, the account database and the cached policy; `machine`
is the flag, or an input that is no terminal. -/
structure Env where
  uid : UInt32
  euid : UInt32
  machine : Bool
  policy : PinPolicy
  uidOf : Str → Option UInt32
  nameOf : UInt32 → Option Str

namespace Env

variable (env : Env)

/-- `can_manage_pin`. -/
def canManagePin (targetUid : UInt32) : Bool := env.uid == 0 || env.uid == targetUid

/-- `can_attempt_pin`. -/
def canAttemptPin (targetUid : UInt32) : Bool := env.euid == 0 || env.uid == targetUid

/-- `get_uid_from_username`. -/
def getUidFromUsername (username : Str) : PinResult UInt32 :=
  match env.uidOf username with
  | some uid => .ok uid
  | none => .error .userNotFound

/-- `resolve_username`. -/
def resolveUsername : Option Str → PinResult Str
  | some username => .ok username
  | none =>
    match env.nameOf env.uid with
    | some name => .ok name
    | none => .error (.getUsernameForUidFailed env.uid)

end Env

/-- What is shown to a human. -/
inductive Text where
  | enterNewPin | confirmPin | pin | newPin | confirm
  /-- the literal `PIN` -/
  | pinLiteral
  | pinPrompt (remaining limit : UInt32)
  | newline
  | pinSetForUser (username : Str)
  | pinChangedForUser (username : Str)
  /-- `Delete PIN for '{}'? (y/N): ` -/
  | deletePrompt (username : Str)
  | pinDeletedForUser (username : Str)
  | pinDeleteFailed (error : PinError)
  | cancelled | incorrectPin | nowLockedOut | noPinSetForUser | userIsLockedOut | pinCorrect | pinIncorrect
  | statusForUser (username : Str) (uid : UInt32)
  | pinProvisionedYes | pinProvisionedNo
  | remainingAttempts (remaining limit : UInt32)
  | lockedOut (locked : Bool)
  | errorResult (error : PinError)
  | masterKey (key : String)
  | recoveryPhrase (phrase : Str)
  | userToken (token : Str)

/-- `master_key::MasterKeyStatus`. -/
structure MasterKeyStatus where
  sealedFilePresent : Bool
  rsaParentPresent : Bool
  hmacKeyPresent : Bool
  sealedFilePath : Str
  rsaHandle : UInt32
  hmacHandle : UInt32

/-- `master_key::MasterKeyInitResult`. -/
structure MasterKeyInitResult where
  recoveryPhrase : Str
  status : MasterKeyStatus

instance : Serialize MasterKeyStatus where
  toJson st := .obj [("sealed_file_present".toList, .bool st.sealedFilePresent),
    ("rsa_parent_present".toList, .bool st.rsaParentPresent),
      ("hmac_key_present".toList, .bool st.hmacKeyPresent),
    ("sealed_file_path".toList, .str st.sealedFilePath), ("rsa_handle".toList, .num st.rsaHandle.toNat),
    ("hmac_handle".toList, .num st.hmacHandle.toNat)]

instance : Serialize MasterKeyInitResult where
  toJson res := .obj [("recovery_phrase".toList, .str res.recoveryPhrase),
    ("status".toList, toJson res.status)]

/-- The functions of `master_key` that pinutil calls. -/
inductive MasterKeyOp where
  | status | init | clearFromTpm | clearFromDisk
  | importToTpm (phrase : Str)
  | deriveUserToken (username : Str)

@[reducible] def MasterKeyOp.Out : MasterKeyOp → Type
  | .status | .importToTpm _ => MasterKeyStatus
  | .init => MasterKeyInitResult
  | .clearFromTpm | .clearFromDisk => Unit
  | .deriveUserToken _ => Str

/-- The calls besides the TPM commands of the manager; a failed one gives the text of
its error. -/
inductive HostCmd where
  | tell (text : Text)
  | result (json : Json)
  | flush
  | echo (on : Bool)
  | readLine
  | masterKey (op : MasterKeyOp)

instance : Interface HostCmd where
  Answer
    | .tell _ | .result _ => Unit
    | .flush | .echo _ => Except Str Unit
    | .readLine => Except Str Str
    | .masterKey op => PinResult op.Out

/-- The commands of the manager and the calls of the process. -/
abbrev UtilCmd := NvCmd ⊕ HostCmd

abbrev UtilM := Fallible UtilCmd PinError

/-- An operation of the manager. -/
def manage {α : Type} (x : PinM α) : UtilM α := x.inl

def tell {ε : Type} (text : Text) : Fallible UtilCmd ε Unit := inr (.tell text) .ok

/-- `io::stdout().flush()?` -/
def flush : UtilM Unit := inr .flush (·.mapError .ioError)

/-- Reading and setting the attributes of the terminal. -/
def echo (on : Bool) : UtilM Unit := inr (.echo on) (·.mapError .termIoError)

def readLine : UtilM Str := inr .readLine (·.mapError .ioError)

def masterKey (op : MasterKeyOp) : UtilM op.Out := inr (.masterKey op) id

end Pinpam
