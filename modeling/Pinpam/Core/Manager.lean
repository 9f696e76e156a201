import Pinpam.Core.Slot

/-!
# The PIN manager

The operations of `PinManager` as programs over the TPM commands, in the order in
which the commands are sent. `clear_sessions` and the session attributes only touch
the local context, so they send nothing and are left out.
-/

namespace Pinpam
set_option autoImplicit false
open Pinpam.Effect Pinpam.Effect.Fallible

/-- A closure run on the context. -/
abbrev TssM := Fallible NvCmd TssError

/-- An operation of the manager. -/
abbrev PinM := Fallible NvCmd PinError

/-- One command. -/
def tpm (c : NvCmd) : TssM c.Out := Fallible.op c id

/-- The `?` from a closure into an operation. -/
def ofTss {α : Type} (x : TssM α) : PinM α := x.mapErr PinError.ofTss

/-- `Context::execute_with_nullauth_session`: an HMAC session around the closure. -/
def executeWithNullauthSession {α : Type} (f : TssM α) : TssM α := do
  let _ ← tpm (.startAuthSession .hmac)
  let res ← attempt f
  tpm .flushContext
  ofResult res

/-- `tss_esapi::abstraction::nv::read_full` under owner authorization. -/
def readFull (nvIndex : NvIndexTpmHandle) : TssM Bytes := do
  let size ← tpm (.nvReadPublic nvIndex)
  tpm (.nvRead .owner nvIndex size 0)

structure PinManager where
  policy : PinPolicy
  tctiSpec : Str

/-- `PinManager::new`. -/
def PinManager.new (policy : PinPolicy) : PinM PinManager := do
  ofTss (tpm (.connect policy.tctiSpec))
  pure ⟨policy, policy.tctiSpec⟩

/-- The manager under the default policy. -/
def defaultManager : PinManager := ⟨.default, PinPolicy.default.tctiSpec⟩

/-- The attributes and the write-once policy of a slot. -/
def slotAttributes : NvAttributes where
  authRead := true
  authWrite := false
  ownerRead := true
  ownerWrite := false
  policyRead := false
  policyWrite := true
  noDa := true

def tagAttributes : NvAttributes where
  authRead := false
  authWrite := false
  ownerRead := true
  ownerWrite := true
  policyRead := false
  policyWrite := false
  noDa := true

def slotPublic (nvIndex : NvIndexTpmHandle) (digest : Digest) : NvPublic where
  nvIndex
  nvIndexType := .pinFail
  attributes := slotAttributes
  authPolicy := digest
  dataAreaSize := PinData.SIZE

def tagPublic (nvIndex : NvIndexTpmHandle) : NvPublic where
  nvIndex
  nvIndexType := .ordinary
  attributes := tagAttributes
  authPolicy := []
  dataAreaSize := PIN_VERSION_TAG_SIZE

def readPinSlotOwner (nvIndex : NvIndexTpmHandle) : PinM (Option PinData) := do
  let result ← attempt (executeWithNullauthSession do
    let data ← readFull nvIndex
    match PinData.fromBytes data with
    | some slot => pure slot
    | none => throw (.wrapper .wrongValueFromTpm))
  match result with
  | .ok slot => pure (some slot)
  | .error (.tss2 (some .handle)) | .error (.tss2 (some .nvUninitialized)) => pure none
  | .error e => throw (PinError.ofTss e)

def readPinVersionTag (uid : UInt32) : PinM (Option UInt8) := do
  let nvIndex ← ofResult (versionNvIndexForUid uid)
  match ← attempt (executeWithNullauthSession (readFull nvIndex)) with
  | .ok data =>
    if data.length ≠ PIN_VERSION_TAG_SIZE then throw (.tpmError (.payloadSize data.length))
    else pure data.head?
  | .error (.tss2 (some .handle)) | .error (.tss2 (some .nvUninitialized)) => pure none
  | .error e => throw (PinError.ofTss e)

def writePinVersionTagExisting (nvIndex : NvIndexTpmHandle) (version : UInt8) : PinM Unit :=
  ofTss (executeWithNullauthSession do
    let _ ← tpm (.nvReadPublic nvIndex)
    tpm (.nvWrite .owner nvIndex [version] 0))

def definePinVersionTag (nvIndex : NvIndexTpmHandle) : PinM Unit :=
  ofTss (executeWithNullauthSession (tpm (.nvDefineSpace Auth.empty (tagPublic nvIndex))))

def writePinVersionTag (uid : UInt32) (version : UInt8) : PinM Unit := do
  let nvIndex ← ofResult (versionNvIndexForUid uid)
  match ← attempt (writePinVersionTagExisting nvIndex version) with
  | .ok () => pure ()
  | .error (.tpmError _) => do
    definePinVersionTag nvIndex
    writePinVersionTagExisting nvIndex version
  | .error e => throw e

def deletePinVersionTag (uid : UInt32) : PinM Unit := do
  let nvIndex ← ofResult (versionNvIndexForUid uid)
  let result ← attempt (executeWithNullauthSession do
    let _ ← tpm (.nvReadPublic nvIndex)
    tpm (.nvUndefineSpace nvIndex))
  match result with
  | .ok () => pure ()
  | .error (.tss2 (some .handle)) | .error (.tss2 (some .nvUninitialized)) => pure ()
  | .error e => throw (PinError.ofTss e)

/-- Delete the stored PIN for a user with administrative privileges (no PIN required). -/
def deletePinAdmin (uid : UInt32) : PinM Unit := do
  let nvIndex ← ofResult (nvIndexForUid uid)
  let result ← attempt (executeWithNullauthSession do
    let _ ← tpm (.nvReadPublic nvIndex)
    tpm (.nvUndefineSpace nvIndex))
  match result with
  | .ok () => do
    -- a failure to delete the tag is only logged
    let _ ← attempt (deletePinVersionTag uid)
    pure ()
  | .error (.tss2 (some .handle)) | .error (.tss2 (some .nvUninitialized)) =>
    throw (.notProvisioned uid)
  | .error e => throw (PinError.ofTss e)

/-- Compare `pinBytes` with the slot's `authValue` by reading the slot under it. -/
def verifyPinExact (uid : UInt32) (pinBytes : Bytes) : PinM VerificationResult := do
  let nvIndex ← ofResult (nvIndexForUid uid)
  let _ ← ofTss (tpm (.nvReadPublic nvIndex))
  let data ← attempt (executeWithNullauthSession do
    let auth ← ofResult (Auth.tryFrom pinBytes)
    tpm (.nvRead (.index auth) nvIndex PinData.SIZE 0))
  let result : Except TssError VerificationResult := data.bind fun data =>
    match PinData.fromBytes data with
    | none => .error (.wrapper .wrongValueFromTpm)
    | some slot => .ok (if slot.atLimit then .lockedOut else .success slot)
  match result with
  | .ok verified => pure verified
  | .error (.tss2 (some .authFail)) | .error (.tss2 (some .badAuth)) => do
    let slot ← attempt (readPinSlotOwner nvIndex)
    pure (.invalid (match slot with
      | .ok (some slot) => slot.atLimit
      | _ => false))
  | .error (.tss2 (some .handle)) | .error (.tss2 (some .nvUninitialized)) =>
    throw (.notProvisioned uid)
  | .error e => throw (PinError.ofTss e)

namespace PinManager

variable (m : PinManager)

def restartContext : PinM Unit := ofTss (tpm (.connect m.tctiSpec))

def definePinSlot (nvIndex : NvIndexTpmHandle) (pinBytes : Bytes) : PinM Unit := do
  let authValue ← ofTss (ofResult (Auth.tryFrom pinBytes))
  -- a trial session gives the digest of the policy: NV_Write, and only while unwritten
  let nvPublic ← ofTss do
    let trial ← tpm (.startAuthSession .trial)
    let trial ← tpm (.policyCommandCode trial .nvWrite)
    let trial ← tpm (.policyNvWritten trial false)
    let digest ← tpm (.policyGetDigest trial)
    tpm .flushContext
    pure (slotPublic nvIndex digest)
  ofTss (executeWithNullauthSession (tpm (.nvDefineSpace authValue nvPublic)))
  -- the same policy in a policy session authorizes the one write
  ofTss do
    let session ← tpm (.startAuthSession .policy)
    let session ← tpm (.policyCommandCode session .nvWrite)
    let session ← tpm (.policyNvWritten session false)
    let _ ← tpm (.nvReadPublic nvIndex)
    tpm (.nvWrite (.policy session) nvIndex (PinData.toBytes ⟨0, m.policy.maxAttempts.toInt32⟩) 0)

/-- Provision a new PIN for the supplied user. -/
def setupPin (uid : UInt32) (pin : Pin) : PinM Unit := do
  let nvIndex ← ofResult (nvIndexForUid uid)
  let existing ← readPinSlotOwner nvIndex
  if existing.isSome then throw (.alreadyProvisioned uid)
  else do
    m.definePinSlot nvIndex (asBytes pin.str)
    m.restartContext
    match ← attempt (writePinVersionTag uid PIN_VERSION_CURRENT) with
    | .ok () => pure ()
    | .error err => do
      m.restartContext
      match ← attempt (deletePinAdmin uid) with
      | .ok () => throw (.tpmError (.tagWrite err))
      | .error cleanupErr => throw (.tpmError (.tagWriteAndRollback err cleanupErr))

def migrateLegacyPinFormat (uid : UInt32) (enteredPin : Pin) : PinM Unit :=
  if normalizeLegacyPin enteredPin.str = enteredPin.str then writePinVersionTag uid PIN_VERSION_CURRENT
  else do
    deletePinAdmin uid
    m.restartContext
    m.setupPin uid enteredPin
    m.restartContext

/-- Validate a user-supplied PIN against the sealed TPM value. -/
def verifyPin (uid : UInt32) (pin : Pin) : PinM VerificationResult := do
  match ← readPinVersionTag uid with
  | some version =>
    if version ≠ PIN_VERSION_CURRENT then throw (.tpmError (.unsupportedVersion version))
    else verifyPinExact uid (asBytes pin.str)
  | none => do
    let pinResult ← verifyPinExact uid (asBytes (normalizeLegacyPin pin.str))
    match pinResult with
    | .success _ => do
      m.restartContext
      -- a failed migration is only logged
      let _ ← attempt (m.migrateLegacyPinFormat uid pin)
      m.restartContext
      pure pinResult
    | _ => pure pinResult

/-- Delete the stored PIN for a user, requiring PIN authentication. -/
def deletePinWithAuth (uid : UInt32) (pin : Pin) : PinM DeleteResult := do
  match ← m.verifyPin uid pin with
  | .success _ => do
    deletePinAdmin uid
    pure .success
  | .invalid locked => pure (.invalid locked)
  | .lockedOut => pure .lockedOut

end PinManager

/-- Report whether a user is currently locked out. -/
def isLockedOut (uid : UInt32) : PinM Bool := do
  let nvIndex ← ofResult (nvIndexForUid uid)
  match ← readPinSlotOwner nvIndex with
  | some slot => pure slot.atLimit
  | none => pure false

/-- Return the failed-attempt counter for a user. -/
def getAttemptCount (uid : UInt32) : PinM (Option UInt32) := do
  let nvIndex ← ofResult (nvIndexForUid uid)
  match ← readPinSlotOwner nvIndex with
  | some slot => pure (some slot.pinCount.toUInt32)
  | none => pure none

/-- Return the full PIN slot data for a user if provisioned. -/
def getPinSlot (uid : UInt32) : PinM (Option PinData) := do
  let nvIndex ← ofResult (nvIndexForUid uid)
  readPinSlotOwner nvIndex

end Pinpam
