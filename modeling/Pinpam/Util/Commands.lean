import Pinpam.Util.Host

/-!
# The commands of pinutil

`setup`, `change`, `delete`, `test` and `status` on a user, the master-key commands
behind `require_root`, and `main`, which reports the result of a command and exits.
-/

namespace Pinpam
set_option autoImplicit false
open Pinpam.Effect Pinpam.Effect.Fallible

/-- Characters in lower case that a reply may begin with: `starts_with('y')` after
`to_lowercase`. -/
def isYes (input : Str) : Bool :=
  match trim input with
  | c :: _ => c == 'y' || c == 'Y'
  | [] => false

namespace Util

variable (env : Env)

/-- Text for a human only. -/
def human (text : Text) : UtilM Unit := if env.machine then pure () else tell text

def newManager : UtilM PinManager := manage (PinManager.new env.policy)

/-- `get_attempt_info`. -/
def getAttemptInfo (uid : UInt32) : UtilM (Option AttemptInfo) := do
  let slot ← manage (getPinSlot uid)
  pure (slot.map AttemptInfo.fromPinData)

/-- The prompt, and one line without echo: by hand at a terminal, from the pipe in machine
mode. -/
def promptPin (prompt : Text) (attempts : Option (UInt32 × UInt32)) : UtilM Pin := do
  if env.machine then do
    let input ← readLine
    ofResult (Pin.new input env.policy)
  else do
    tell (match attempts with
      | some (used, limit) => .pinPrompt (limit - used) limit
      | none => prompt)
    flush
    echo false
    let result ← (attempt readLine : UtilM (PinResult Str))
    echo true
    tell .newline
    let input ← ofResult result
    ofResult (Pin.new input env.policy)

/-- A new PIN, typed twice at a terminal. -/
def confirmedPin (prompt again : Text) : UtilM Pin := do
  let pin ← promptPin env prompt none
  if env.machine then pure pin
  else do
    let confirm ← promptPin env again none
    if pin.str ≠ confirm.str then throw .pinsDontMatch
    pure pin

/-! ## The commands on a user -/

def setupPin (username : Str) : UtilM Unit := do
  let uid ← ofResult (env.getUidFromUsername username)
  if ¬ env.canManagePin uid then throw .permissionDenied
  else do
    let manager ← newManager env
    match ← (attempt (manage (getAttemptCount uid)) : UtilM (PinResult (Option UInt32))) with
    | .ok (some _) => throw .pinAlreadySet
    | .error (.notProvisioned _) | .ok none => do
      let pin ← confirmedPin env .enterNewPin .confirmPin
      manage (manager.setupPin uid pin)
      human env (.pinSetForUser username)
    | .error e => throw e

/-- The change by a user: the current PIN is verified, and verified again to delete the
slot. -/
def changeOwnPin (manager : PinManager) (uid : UInt32) (info : AttemptInfo) (username : Str) :
    UtilM Unit := do
  if info.locked then throw .pinIsLocked
  else do
    let current ← promptPin env .pin (some info.promptTuple)
    match ← manage (manager.verifyPin uid current) with
    | .invalid locked => throw (.incorrectPin locked)
    | .lockedOut => throw .pinIsLocked
    | .success _ => do
      manage manager.restartContext
      let newPin ← confirmedPin env .newPin .confirm
      match ← manage (manager.deletePinWithAuth uid current) with
      | .success => do
        manage (manager.setupPin uid newPin)
        human env (.pinChangedForUser username)
      | result => throw (.cannotDeletePin result)

/-- The change by root. -/
def changeAnyPin (manager : PinManager) (uid : UInt32) (username : Str) : UtilM Unit := do
  let newPin ← confirmedPin env .newPin .confirm
  manage (deletePinAdmin uid)
  manage (manager.setupPin uid newPin)
  human env (.pinChangedForUser username)

def changePin (username : Str) : UtilM Unit := do
  let uid ← ofResult (env.getUidFromUsername username)
  if ¬ env.canManagePin uid then throw .permissionDenied
  else do
    let manager ← newManager env
    match ← getAttemptInfo uid with
    | none => throw .noPinSet
    | some info => do
      manage manager.restartContext
      if env.uid ≠ 0 then changeOwnPin env manager uid info username
      else changeAnyPin env manager uid username

/-- Deletion by root, confirmed at a terminal. -/
def deleteAnyPin (uid : UInt32) (username : Str) : UtilM Unit := do
  let confirmed ← if env.machine then pure true else do
    tell (.deletePrompt username)
    flush
    let input ← readLine
    pure (isYes input)
  if ¬ confirmed then tell .cancelled
  else do
    let result ← (attempt (manage (deletePinAdmin uid)) : UtilM (PinResult Unit))
    human env (match result with
      | .ok _ => .pinDeletedForUser username
      | .error e => .pinDeleteFailed e)
    ofResult result

/-- Deletion by the user: the result of the authenticated deletion is only shown. -/
def deleteOwnPin (manager : PinManager) (uid : UInt32) (info : AttemptInfo) (username : Str) :
    UtilM Unit := do
  let pin ← promptPin env .pinLiteral (some info.promptTuple)
  let result ← manage (manager.deletePinWithAuth uid pin)
  human env (match result with
    | .success => .pinDeletedForUser username
    | .invalid _ => .incorrectPin
    | .lockedOut => .nowLockedOut)

def deletePin (username : Str) : UtilM Unit := do
  let uid ← ofResult (env.getUidFromUsername username)
  if env.uid ≠ 0 ∧ env.uid ≠ uid then throw .permissionDenied
  else do
    let manager ← newManager env
    match ← getAttemptInfo uid with
    | none => throw .noPinSet
    | some info =>
      if env.uid ≠ 0 ∧ info.locked then throw .pinIsLocked
      else if env.uid = 0 then deleteAnyPin env uid username
      else deleteOwnPin env manager uid info username

def testPin (username : Str) : UtilM Unit := do
  let uid ← ofResult (env.getUidFromUsername username)
  if ¬ env.canAttemptPin uid then throw .permissionDenied
  else do
    let manager ← newManager env
    match ← getAttemptInfo uid with
    | none => do
      human env .noPinSetForUser
      throw .noPinSet
    | some info =>
      if info.locked then do
        human env .userIsLockedOut
        throw .pinIsLocked
      else do
        let pin ← promptPin env .pinLiteral (some info.promptTuple)
        let result ← manage (manager.verifyPin uid pin)
        if env.machine then
          match result with
          | .success _ => pure ()
          | .invalid locked => throw (.incorrectPin locked)
          | .lockedOut => throw .pinIsLocked
        else
          tell (match result with
            | .success _ => .pinCorrect
            | .invalid _ => .pinIncorrect
            | .lockedOut => .nowLockedOut)

def showStatus (username : Str) : UtilM (Option AttemptInfo) := do
  let uid ← ofResult (env.getUidFromUsername username)
  let _ ← newManager env
  human env (.statusForUser username uid)
  let info ← getAttemptInfo uid
  match info with
  | some attempts => do
    human env .pinProvisionedYes
    human env (.remainingAttempts (attempts.limit - attempts.used) attempts.limit)
    human env (.lockedOut attempts.locked)
  | none => human env .pinProvisionedNo
  pure info

/-! ## The master key -/

def requireRoot : PinResult Unit := if env.uid ≠ 0 then .error .permissionDenied else .ok ()

/-- `require_interactive`; the text is that of a locale. -/
def requireInteractive (purpose : String) : UtilM Unit :=
  if env.machine then throw (.termIoError purpose.toList) else pure ()

def promptLine (prompt : Text) : UtilM Str := do
  tell prompt
  flush
  let input ← readLine
  pure (trim input)

def promptAcknowledgement (expected : String) (prompt : Text) : UtilM Unit := do
  let got ← promptLine prompt
  if trim got ≠ expected.toList then throw (.termIoError "cancelled".toList) else pure ()

def masterKeyStatus : UtilM MasterKeyStatus := do
  let st ← masterKey .status
  human env (.masterKey "status")
  pure st

def masterKeyInit : UtilM MasterKeyInitResult := do
  let proceed ← if env.machine then pure true else do
    tell (.masterKey "mk_warn_init_new_key")
    tell (.masterKey "mk_warn_init_break_old_unlocks")
    let input ← promptLine (.masterKey "mk_proceed_prompt")
    pure (isYes input)
  if ¬ proceed then throw (.termIoError "cancelled".toList)
  else do
    let res ← masterKey .init
    if env.machine then pure res
    else do
      tell (.recoveryPhrase res.recoveryPhrase)
      let confirm ← promptLine (.masterKey "mk_recovery_confirm_prompt")
      if trim confirm ≠ trim res.recoveryPhrase then
        throw (.termIoError "mk_recovery_confirm_mismatch".toList)
      else pure res

def masterKeyImportToTpm : UtilM MasterKeyStatus := do
  requireInteractive env "mk_purpose_import"
  let phrase ← promptLine (.masterKey "mk_recovery_phrase_prompt")
  let st ← masterKey (.importToTpm phrase)
  tell (.masterKey "mk_import_success")
  pure st

def masterKeyClearFromTpm : UtilM Unit := do
  requireInteractive env "mk_purpose_tpm_clear"
  tell (.masterKey "mk_warn_clear_tpm")
  promptAcknowledgement "yes" (.masterKey "mk_ack_prompt")
  masterKey .clearFromTpm
  tell (.masterKey "mk_clear_tpm_success")

def masterKeyClearFromDisk : UtilM Unit := do
  requireInteractive env "mk_purpose_disk_clear"
  tell (.masterKey "mk_warn_clear_disk")
  promptAcknowledgement "yes" (.masterKey "mk_ack_prompt")
  masterKey .clearFromDisk
  tell (.masterKey "mk_clear_disk_success")

def masterKeyGetUserToken (username : Str) : UtilM Str := masterKey (.deriveUserToken username)

end Util

/-! ## The process -/

inductive MasterKeyCommands where
  | init | status | importToTpm | clearFromTpm | clearFromDisk
  | getUserToken (username : Str)

inductive Commands where
  | setup (username : Option Str)
  | change (username : Option Str)
  | delete (username : Option Str)
  | test (username : Option Str)
  | status (username : Option Str)
  | masterKey (command : MasterKeyCommands)

/-- Why `main` ends early: a call of `exit`, or an error it returns. -/
inductive Stop where
  | exit (code : Nat)
  | returned (error : PinError)

abbrev MainM := Fallible UtilCmd Stop

/-- The exit status of the process; an error returned from `main` gives 1. -/
def exitStatus : Except Stop Unit → Nat
  | .ok () => 0
  | .error (.exit code) => code
  | .error (.returned _) => 1

namespace Util

variable (env : Env)

/-- `handle_result`: the human sees errors, the machine the result; an error exits. -/
def handleResult {α : Type} [Serialize α] (res : PinResult α) : MainM Unit := do
  if env.machine then inr (.result (toJson res)) .ok
  else
    match res with
    | .error e => tell (.errorResult e)
    | .ok _ => pure ()
  match res with
  | .error _ => throw (.exit 1)
  | .ok _ => pure ()

/-- A command and the report of its result. -/
def report {α : Type} [Serialize α] (command : UtilM α) : MainM Unit := do
  let res ← (attempt command : MainM (PinResult α))
  handleResult env res

/-- A command on the user that was named, or the one who runs it. -/
def onUser {α : Type} [Serialize α] (command : Str → UtilM α) (username : Option Str) : MainM Unit := do
  let username ← ofResult ((env.resolveUsername username).mapError .returned)
  report env (command username)

def main : Commands → MainM Unit
  | .setup username => onUser env (setupPin env) username
  | .change username => onUser env (changePin env) username
  | .delete username => onUser env (deletePin env) username
  | .test username => onUser env (testPin env) username
  | .status username => onUser env (showStatus env) username
  | .masterKey command => do
    match requireRoot env with
    | .error e => handleResult env (.error e : PinResult Unit)
    | .ok () => pure ()
    match command with
    | .init => report env (masterKeyInit env)
    | .status => report env (masterKeyStatus env)
    | .importToTpm => report env (masterKeyImportToTpm env)
    | .clearFromTpm => report env (masterKeyClearFromTpm env)
    | .clearFromDisk => report env (masterKeyClearFromDisk env)
    | .getUserToken username =>
      if env.machine then report env (masterKeyGetUserToken username)
      else do
        match ← (attempt (masterKeyGetUserToken username) : MainM (PinResult Str)) with
        | .ok token => tell (.userToken token)
        | .error e => do
          tell (.errorResult e)
          throw (.exit 1)

end Util

end Pinpam
