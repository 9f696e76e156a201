import Pinpam.Effect.Runs
import Pinpam.MasterKey.Vault
import Pinpam.Util.Host

/-!
# The master key

The functions of `master_key` as programs over the calls, in the order in which they are
made. Every call says which of the functions that `init` and `import_to_tpm` are made of
it belongs to. The session attributes, `tr_close` and the zeroing of keys only touch the
process itself and are left out.
-/

namespace Pinpam
set_option autoImplicit false
open Pinpam.Effect Pinpam.Effect.Fallible

def MASTER_KEY_RSA_PARENT_HANDLE : UInt32 := 0x81000080

def MASTER_KEY_HMAC_HANDLE : UInt32 := 0x81000081

def MASTER_KEY_SEALED_FILE : Str := "/var/pinpam/sealed_master_key".toList

def SEALED_FILE_VERSION : UInt32 := 1

def HMAC_KEY_LEN : Nat := 32

structure SealedMasterKeyFile where
  version : UInt32
  createdUnixMs : UInt64
  saltB64 : Str
  nonceB64 : Str
  ciphertextB64 : Str
  deriving DecidableEq

/-- The crates the sealed file rests on. -/
structure Crypto where
  /-- Argon2id, version 0x13, 32 MiB, three passes, one lane, 32 bytes -/
  hashPasswordInto : Bytes → Bytes → Except Str Bytes
  /-- AES-256-GCM, by key and nonce -/
  encrypt : Bytes → Bytes → Bytes → Except Str Bytes
  decrypt : Bytes → Bytes → Bytes → Except Str Bytes
  /-- standard base64 -/
  encode : Bytes → Str
  decode : Str → Except Str Bytes
  /-- JSON -/
  toVec : SealedMasterKeyFile → Except Str Bytes
  fromSlice : Bytes → Except Str SealedMasterKeyFile

abbrev KeyM := Fallible KeyCmd PinError

/-- A command of the TPM, with its own error. -/
def ask (c : ObjectCmd) : Fallible KeyCmd TssError c.Out := op (Sum.inl c) id

/-- A command of the TPM and `?`. -/
def send (c : ObjectCmd) : KeyM c.Out := op (Sum.inl c) (·.mapError PinError.ofTss)

/-- A call on the disk and `?`. -/
def onDisk {α : Type} (c : SysCmd) (read : Answer c → Except IoError α) : KeyM α :=
  op (Sum.inr c) fun r => (read r).mapError fun e => .ioError e.text

def fillBytes (len : Nat) : KeyM (Vector UInt8 len) := op (Sum.inr (SysCmd.fillBytes len)) .ok

/-- `hex::encode`. -/
def hexEncode (b : Bytes) : Str :=
  b.flatMap fun x => [Nat.digitChar (x.toNat / 16), Nat.digitChar (x.toNat % 16)]

/-- `MaxBuffer::try_from`. -/
def maxBuffer (b : Bytes) : Except TssError Bytes :=
  if b.length ≤ 1024 then .ok b else .error (.wrapper .wrongParamSize)

/-- The calls that `init` and `import_to_tpm` make, and what they do themselves. -/
inductive Call where
  | own | provision | seal | rollback | status
  deriving DecidableEq

abbrev CallCmd := Labelled Call KeyCmd

namespace MasterKey

variable (policy : PinPolicy) (crypto : Crypto) (uid : UInt32)

def ensureRootRealUid : PinResult Unit := if uid ≠ 0 then .error .permissionDenied else .ok ()

def newContext : KeyM Unit := send (.connect policy.tctiSpec)

def persistentHandle (handle : UInt32) : PinResult PersistentTpmHandle :=
  (PersistentTpmHandle.new handle).mapError .ofTss

def persistentPresent (handle : UInt32) : KeyM Bool := do
  let persistentTpmHandle ← ofResult (persistentHandle handle)
  match ← (attempt (ask (.trFromTpmPublic persistentTpmHandle)) : KeyM (Except TssError Unit)) with
  | .ok _ => pure true
  | .error (.tss2 (some .handle)) => pure false
  | .error e => throw (.ofTss e)

def tpmStatus : KeyM (Bool × Bool) := do
  newContext policy
  let rsa ← persistentPresent MASTER_KEY_RSA_PARENT_HANDLE
  let hmac ← persistentPresent MASTER_KEY_HMAC_HANDLE
  pure (rsa, hmac)

def status : KeyM MasterKeyStatus := do
  let sealedFilePresent ← op (Sum.inr SysCmd.exists) .ok
  let (rsaParentPresent, hmacKeyPresent) ← tpmStatus policy
  pure {
    sealedFilePresent, rsaParentPresent, hmacKeyPresent
    sealedFilePath := MASTER_KEY_SEALED_FILE
    rsaHandle := MASTER_KEY_RSA_PARENT_HANDLE
    hmacHandle := MASTER_KEY_HMAC_HANDLE }

/-! ## The objects in the TPM -/

/-- `create_restricted_decryption_rsa_public` under AES-256-CFB. -/
def rsaParentPublic : Public where
  attributes := {
    fixedTpm := true, fixedParent := true, sensitiveDataOrigin := true, userWithAuth := true
    restricted := true, decrypt := true, signEncrypt := false }
  parameters := .rsa .aes256Cfb 2048

/-- The template of an HMAC-SHA256 object with a given key. -/
def hmacKeyPublic : Public where
  attributes := {
    fixedTpm := true, fixedParent := true, sensitiveDataOrigin := false, userWithAuth := true
    restricted := false, decrypt := false, signEncrypt := true }
  parameters := .keyedHash .hmacSha256 (List.replicate 32 0)

def createAndPersistRsaParent : KeyM Unit := do
  let primary ← send (.createPrimary rsaParentPublic)
  let persistent ← ofResult (persistentHandle MASTER_KEY_RSA_PARENT_HANDLE)
  let _ ← send (.evictControl (.transient primary) persistent)
  let _ ← (attempt (ask .flushContext) : KeyM (Except TssError Unit))
  pure ()

def createAndPersistHmacKey (hmacKey : Vector UInt8 HMAC_KEY_LEN) : KeyM Unit := do
  let parentKey ← ofResult (persistentHandle MASTER_KEY_RSA_PARENT_HANDLE)
  send (.trFromTpmPublic parentKey)
  let created ← send (.create parentKey hmacKeyPublic hmacKey.toList)
  let transient ← send (.load parentKey created)
  let persistent ← ofResult (persistentHandle MASTER_KEY_HMAC_HANDLE)
  let _ ← send (.evictControl (.transient transient) persistent)
  let _ ← (attempt (ask .flushContext) : KeyM (Except TssError Unit))
  pure ()

def provisionTpmObjects (hmacKey : Vector UInt8 HMAC_KEY_LEN) : KeyM Unit := do
  newContext policy
  let rsa ← persistentPresent MASTER_KEY_RSA_PARENT_HANDLE
  (if rsa then pure () else createAndPersistRsaParent : KeyM Unit)
  let hmac ← persistentPresent MASTER_KEY_HMAC_HANDLE
  if hmac then throw (.tpmError (.locale "mk_hmac_handle_already_exists"))
  else createAndPersistHmacKey hmacKey

def evictPersistentIfPresent (handle : UInt32) : KeyM Unit := do
  let present ← persistentPresent handle
  if present then do
    let persistentTpmHandle ← ofResult (persistentHandle handle)
    send (.trFromTpmPublic persistentTpmHandle)
    let _ ← send (.evictControl (.persistent persistentTpmHandle) persistentTpmHandle)
    pure ()
  else pure ()

/-- The HMAC key goes first; both results are dropped. -/
def clearFromTpm : KeyM Unit := do
  ofResult (ensureRootRealUid uid)
  newContext policy
  let _ ← (attempt (evictPersistentIfPresent MASTER_KEY_HMAC_HANDLE) : KeyM (PinResult Unit))
  let _ ← (attempt (evictPersistentIfPresent MASTER_KEY_RSA_PARENT_HANDLE) : KeyM (PinResult Unit))
  pure ()

def deriveUserToken (username : Str) : KeyM Str := do
  newContext policy
  let persistentTpmHandle ← ofResult (persistentHandle MASTER_KEY_HMAC_HANDLE)
  send (.trFromTpmPublic persistentTpmHandle)
  let buffer ← ofResult ((maxBuffer (asBytes username)).mapError .ofTss)
  send .startAuthSession
  let res ← (attempt (send (.hmac persistentTpmHandle buffer)) : KeyM (PinResult Bytes))
  send .flushContext
  let digest ← ofResult res
  pure (hexEncode digest)

/-! ## The sealed file -/

def ensureDirForPath (tightenForSystemDir : Bool) : KeyM Unit := do
  onDisk .createDirAll id
  if tightenForSystemDir then do
    let _ ← (attempt (onDisk (.setPermissions .dir 0o700) id) : KeyM (PinResult Unit))
    let _ ← (attempt (onDisk (.chown .dir 0 0) id) : KeyM (PinResult Unit))
    pure ()
  else pure ()

def deriveAesKeyFromPhrase (phrase : Str) (salt : Bytes) : PinResult Bytes :=
  (crypto.hashPasswordInto (asBytes phrase) salt).mapError .ioError

def sealKeyBytesToPath (keyBytes : Vector UInt8 HMAC_KEY_LEN) (phrase : Str) : KeyM Unit := do
  ensureDirForPath false
  let salt ← fillBytes 16
  let nonce ← fillBytes 12
  let aesKey ← ofResult (deriveAesKeyFromPhrase crypto phrase salt.toList)
  let ciphertext ← ofResult ((crypto.encrypt aesKey nonce.toList keyBytes.toList).mapError .ioError)
  let createdUnixMs ← op (Sum.inr SysCmd.nowUnixMs) .ok
  let json ← ofResult ((crypto.toVec {
    version := SEALED_FILE_VERSION
    createdUnixMs
    saltB64 := crypto.encode salt.toList
    nonceB64 := crypto.encode nonce.toList
    ciphertextB64 := crypto.encode ciphertext }).mapError .ioError)
  onDisk (.createNew 0o600) id
  onDisk (.writeAll json) id
  onDisk (.writeAll [10]) id
  let _ ← (attempt (onDisk (.setPermissions .file 0o600) id) : KeyM (PinResult Unit))
  let _ ← (attempt (onDisk (.chown .file 0 0) id) : KeyM (PinResult Unit))
  pure ()

/-- What the bytes of a sealed file open to under a phrase. -/
def unsealBytes (phrase : Str) (data : Bytes) : PinResult Bytes := do
  let sealedFile ← (crypto.fromSlice data).mapError .ioError
  if sealedFile.version ≠ SEALED_FILE_VERSION then
    throw (.ioError "mk_unsupported_sealed_file_version".toList)
  let salt ← (crypto.decode sealedFile.saltB64).mapError .ioError
  let nonce ← (crypto.decode sealedFile.nonceB64).mapError .ioError
  let ciphertext ← (crypto.decode sealedFile.ciphertextB64).mapError .ioError
  if nonce.length ≠ 12 then throw (.ioError "mk_invalid_nonce_length".toList)
  let aesKey ← deriveAesKeyFromPhrase crypto phrase salt
  (crypto.decrypt aesKey nonce ciphertext).mapError .ioError

def unsealKeyBytesFromPath (phrase : Str) : KeyM Bytes := do
  let data ← onDisk .read id
  ofResult (unsealBytes crypto phrase data)

def generateRecoveryPhrase : KeyM Str := op (Sum.inr SysCmd.mnemonic) (·.mapError .ioError)

def clearFromDisk : KeyM Unit := do
  ofResult (ensureRootRealUid uid)
  op (Sum.inr SysCmd.removeFile) fun
    | .ok () => .ok ()
    | .error e => if e.kind = .notFound then .ok () else .error (.ioError e.text)

/-! ## Making and restoring the key -/

abbrev CallM := Fallible CallCmd PinError

/-- A new key in the TPM, sealed on disk under a new phrase; if the sealing fails, the TPM
is cleared. -/
def init : CallM MasterKeyInitResult := do
  ofResult (ensureRootRealUid uid)
  let sealedFilePresent ← (op (Sum.inr SysCmd.exists) .ok : KeyM Bool).label .own
  if sealedFilePresent then throw (.ioError "mk_sealed_file_already_exists".toList)
  else do
    let hmacKey ← (fillBytes HMAC_KEY_LEN).label .own
    let recoveryPhrase ← generateRecoveryPhrase.label .own
    (provisionTpmObjects policy hmacKey).label .provision
    let _ ← (attempt ((ensureDirForPath true).label .own) : CallM (PinResult Unit))
    match ← (attempt ((sealKeyBytesToPath crypto hmacKey recoveryPhrase).label .seal) : CallM
      (PinResult Unit)) with
    | .error e => do
      let _ ← (attempt ((clearFromTpm policy uid).label .rollback) : CallM (PinResult Unit))
      throw e
    | .ok () => do
      let status ← (status policy).label .status
      pure ⟨recoveryPhrase, status⟩

def importToTpm (recoveryPhrase : Str) : CallM MasterKeyStatus := do
  ofResult (ensureRootRealUid uid)
  let current ← (status policy).label .own
  if current.rsaParentPresent then
    throw (.tpmError (.locale "mk_rsa_parent_already_present_refuse_import"))
  else if current.hmacKeyPresent then
    throw (.tpmError (.locale "mk_hmac_handle_already_present_refuse_import"))
  else if ¬ current.sealedFilePresent then throw (.ioError "mk_sealed_file_not_present".toList)
  else do
    let keyBytes ← (unsealKeyBytesFromPath crypto recoveryPhrase).label .own
    if len : keyBytes.length = HMAC_KEY_LEN then do
      (provisionTpmObjects policy ⟨keyBytes.toArray, len⟩).label .provision
      (status policy).label .status
    else throw (.ioError "mk_sealed_data_unexpected_length".toList)

/-- A call of a function of `master_key` by a process of the user. -/
def program : (op : MasterKeyOp) → CallM op.Out
  | .status => (status policy).label .status
  | .init => init policy crypto uid
  | .clearFromTpm => (clearFromTpm policy uid).label .own
  | .clearFromDisk => (clearFromDisk uid).label .own
  | .importToTpm phrase => importToTpm policy crypto uid phrase
  | .deriveUserToken username => (deriveUserToken policy username).label .own

end MasterKey

/-! ## Runs of calls -/

/-- A call of a function of `master_key`, by a process of the user under the policy. -/
structure KeyCall where
  policy : PinPolicy
  uid : UInt32
  op : MasterKeyOp
  before : Vault
  events : List (Event CallCmd Vault)
  result : PinResult op.Out
  after : Vault

/-- The call goes so, whatever fails. -/
def KeyCall.Goes (mac : Bytes → Bytes → Bytes) (crypto : Crypto) (call : KeyCall) : Prop :=
  (MasterKey.program call.policy crypto call.uid call.op).run.Runs (Vault.any mac).labelled call.before
    call.events call.result
    call.after

/-- Calls one after the other. -/
inductive KeyRun (mac : Bytes → Bytes → Bytes) (crypto : Crypto) :
    Vault → List KeyCall → Vault → Prop where
  | stop (v : Vault) : KeyRun mac crypto v [] v
  | call {call : KeyCall} {calls : List KeyCall} {v : Vault} (goes : call.Goes mac crypto)
      (rest : KeyRun mac crypto call.after calls v) : KeyRun mac crypto call.before (call :: calls) v

/-- The call on a disk that works and on a TPM, but for the failures of the list. -/
def KeyCall.flaky (mac : Bytes → Bytes → Bytes) (crypto : Crypto) (policy : PinPolicy)
    (uid : UInt32) (op : MasterKeyOp) (v : Vault) (faults : List (Option Fault)) : KeyCall where
  policy
  uid
  op
  before := v
  events := ((MasterKey.program policy crypto uid op).run.trace
    (Handler.labelled (Vault.exec mac).flaky) ⟨v, faults⟩).map
    fun event => ⟨event.before.state, event.op, event.answer, event.after.state⟩
  result := ((MasterKey.program policy crypto uid op).run.run (Handler.labelled (Vault.exec mac).flaky)
    ⟨v, faults⟩).1
  after := ((MasterKey.program policy crypto uid op).run.run (Handler.labelled (Vault.exec mac).flaky)
    ⟨v, faults⟩).2.state

theorem KeyCall.flaky_goes {mac : Bytes → Bytes → Bytes} {crypto : Crypto} {policy : PinPolicy}
    {uid : UInt32} {op : MasterKeyOp} {v : Vault} {faults : List (Option Fault)} :
    (KeyCall.flaky mac crypto policy uid op v faults).Goes mac crypto := by
  have within : Within (Handler.labelled (Vault.exec mac).flaky : Handler CallCmd (Flaky Fault Vault))
      Flaky.state (Vault.any mac).labelled := fun c t => Vault.flaky_within c.op t
  exact Prog.runs_run within (MasterKey.program policy crypto uid op).run ⟨v, faults⟩

/-! ## Samples -/

def sampleMac (key data : Bytes) : Bytes := key ++ data

/-- No objects and no file. -/
def emptyVault : Vault := (.empty, ⟨none⟩)

/-- The crates by the table of one sealing: that of a key of zeros. -/
def sampleCrypto : Crypto where
  hashPasswordInto phrase salt := .ok (phrase ++ salt)
  encrypt key nonce data :=
    if key = asBytes "abandon".toList ++ List.replicate 16 0 ∧ nonce = List.replicate 12 0 ∧
    data = List.replicate 32 0 then .ok [7]
    else .error []
  decrypt key nonce data :=
    if key = asBytes "abandon".toList ++ List.replicate 16 0 ∧
    nonce = List.replicate 12 0 ∧ data = [7] then
      .ok (List.replicate 32 0)
    else .error []
  encode data := data.map fun x => Char.ofNat x.toNat
  decode text := .ok (text.map fun c => UInt8.ofNat c.toNat)
  toVec sealedFile :=
    if sealedFile = ⟨1, 0, List.replicate 16 '\x00', List.replicate 12 '\x00', ['\x07']⟩ then .ok [8, 9]
      else .error []
  fromSlice data :=
    if data = [8, 9] ∨ data = [8, 9, 10] then
      .ok ⟨1, 0, List.replicate 16 '\x00', List.replicate 12 '\x00', ['\x07']⟩
    else .error []

end Pinpam
