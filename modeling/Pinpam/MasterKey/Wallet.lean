import Pinpam.MasterKey.Race

/-!
# The wallet

What the functions of `master_key` are for: a key that signs in the TPM, and a file that
opens to it under a phrase. On a machine where nothing fails every run of calls is answered
as by the wallet, with every refusal, and recovery succeeds.
-/

namespace Pinpam
set_option autoImplicit false
open Pinpam.Effect Pinpam.Effect.Fallible

/-- Whether the key has a parent, the key, and what the file opens to under a phrase. -/
structure Wallet where
  parent : Bool
  key : Option Bytes
  file : Option (Str → PinResult Bytes)

/-- The calls for root alone. -/
def MasterKeyOp.Privileged : MasterKeyOp → Prop
  | .status | .deriveUserToken _ => False
  | _ => True

namespace Wallet

def status (w : Wallet) : MasterKeyStatus where
  sealedFilePresent := w.file.isSome
  rsaParentPresent := w.parent
  hmacKeyPresent := w.key.isSome
  sealedFilePath := MASTER_KEY_SEALED_FILE
  rsaHandle := MASTER_KEY_RSA_PARENT_HANDLE
  hmacHandle := MASTER_KEY_HMAC_HANDLE

/-- The file opens under the phrase, and to nothing but the key under any. -/
structure Seals (file : Str → PinResult Bytes) (phrase : Str) (key : Bytes) : Prop where
  opens : file phrase = .ok key
  only : ∀ other key', file other = .ok key' → key' = key

def refused (key : String) : PinError := .tpmError (.locale key)

def failed (text : String) : PinError := .ioError text.toList

/-- An answer to a call by a process of the user, and the wallet after it. -/
inductive Answers (mac : Bytes → Bytes → Bytes) (uid : UInt32) (w : Wallet) :
    (op : MasterKeyOp) → PinResult op.Out → Wallet → Prop where
  | denied {op : MasterKeyOp} (privileged : op.Privileged) (user : uid ≠ 0) :
      Answers mac uid w op (.error .permissionDenied) w
  | told : Answers mac uid w .status (.ok w.status) w
  | sealedBefore (root : uid = 0) (there : w.file.isSome) :
      Answers mac uid w .init (.error (failed "mk_sealed_file_already_exists")) w
  /-- a parent is made before the key is found -/
  | heldBefore (root : uid = 0) (bare : w.file = none) (held : w.key.isSome) :
      Answers mac uid w .init (.error (refused "mk_hmac_handle_already_exists"))
        { w with parent := true }
  | made {key : Bytes} {phrase : Str} {file : Str → PinResult Bytes} (root : uid = 0)
      (bare : w.file = none) (free : w.key = none) (len : key.length = HMAC_KEY_LEN)
      (seals : Seals file phrase key) :
      Answers mac uid w .init (.ok ⟨phrase, status ⟨true, some key, some file⟩⟩)
        ⟨true, some key, some file⟩
  | parented {phrase : Str} (root : uid = 0) (there : w.parent = true) :
      Answers mac uid w (.importToTpm phrase)
        (.error (refused "mk_rsa_parent_already_present_refuse_import")) w
  | held {phrase : Str} (root : uid = 0) (alone : w.parent = false) (there : w.key.isSome) :
      Answers mac uid w (.importToTpm phrase)
        (.error (refused "mk_hmac_handle_already_present_refuse_import")) w
  | nothing {phrase : Str} (root : uid = 0) (alone : w.parent = false) (free : w.key = none)
      (bare : w.file = none) :
      Answers mac uid w (.importToTpm phrase) (.error (failed "mk_sealed_file_not_present")) w
  | closed {phrase : Str} {file : Str → PinResult Bytes} {e : PinError} (root : uid = 0)
      (alone : w.parent = false) (free : w.key = none) (there : w.file = some file)
      (closed : file phrase = .error e) : Answers mac uid w (.importToTpm phrase) (.error e) w
  | odd {phrase : Str} {file : Str → PinResult Bytes} {key : Bytes} (root : uid = 0)
      (alone : w.parent = false) (free : w.key = none) (there : w.file = some file)
      (opened : file phrase = .ok key) (len : key.length ≠ HMAC_KEY_LEN) :
      Answers mac uid w (.importToTpm phrase)
        (.error (failed "mk_sealed_data_unexpected_length")) w
  | imported {phrase : Str} {file : Str → PinResult Bytes} {key : Bytes} (root : uid = 0)
      (alone : w.parent = false) (free : w.key = none) (there : w.file = some file)
      (opened : file phrase = .ok key) (len : key.length = HMAC_KEY_LEN) :
      Answers mac uid w (.importToTpm phrase) (.ok (status ⟨true, some key, w.file⟩))
        ⟨true, some key, w.file⟩
  | cleared (root : uid = 0) :
      Answers mac uid w .clearFromTpm (.ok ()) { w with parent := false, key := none }
  | forgotten (root : uid = 0) : Answers mac uid w .clearFromDisk (.ok ()) { w with file := none }
  | unheld {username : Str} (free : w.key = none) :
      Answers mac uid w (.deriveUserToken username) (.error (.ofTss (.tss2 (some .handle)))) w
  | long {username : Str} {key : Bytes} (there : w.key = some key)
      (long : 1024 < (asBytes username).length) :
      Answers mac uid w (.deriveUserToken username) (.error (.ofTss (.wrapper .wrongParamSize))) w
  | derived {username : Str} {key : Bytes} (there : w.key = some key)
      (short : (asBytes username).length ≤ 1024) :
      Answers mac uid w (.deriveUserToken username) (.ok (hexEncode (mac key (asBytes username)))) w

/-- The answers to calls one after the other. -/
inductive Course (mac : Bytes → Bytes → Bytes) : Wallet → List KeyCall → Wallet → Prop where
  | stop (w : Wallet) : Course mac w [] w
  | call {call : KeyCall} {calls : List KeyCall} {w w₁ w' : Wallet}
      (answers : Answers mac call.uid w call.op call.result w₁) (rest : Course mac w₁ calls w') :
      Course mac w (call :: calls) w'

end Wallet

/-- The vault keeps the wallet: there is nothing else at the two handles. -/
structure Vault.Keeps (crypto : Crypto) (v : Vault) (w : Wallet) : Prop where
  parent : w.parent = (v.1.persistent rsaHandle).isSome
  storage : ∀ p, v.1.persistent rsaHandle = some p → p.isParent = true
  key : v.1.persistent hmacHandle = w.key.map hmacObject
  file : w.file = v.2.sealedFile.map fun data phrase => MasterKey.unsealBytes crypto phrase data

/-- The objects with a parent, a new one if there is none. -/
def Objects.parented (o : Objects) : Objects :=
  if (o.persistent rsaHandle).isSome then o else o.set rsaHandle (some rsaParent)

section Objects

variable {o : Objects} {h : PersistentTpmHandle}

theorem parented_rsa : (o.parented.persistent rsaHandle).isSome := by
  unfold Objects.parented
  split
  next there => exact there
  next => simp

theorem parented_storage (storage : ∀ p, o.persistent rsaHandle = some p → p.isParent = true) :
    ∀ p, o.parented.persistent rsaHandle = some p → p.isParent = true := by
  unfold Objects.parented
  split
  next => exact storage
  next =>
    intro p made
    simp only [Objects.persistent_set, if_true] at made
    cases made
    rfl

theorem parented_hmac : o.parented.persistent hmacHandle = o.persistent hmacHandle := by
  unfold Objects.parented
  split
  next => rfl
  next => simp

theorem set_none (free : o.persistent h = none) : o.set h none = o := by
  unfold Objects.set
  congr 1
  funext j
  by_cases same : j = h
  · rw [if_pos same, same, free]
  · rw [if_neg same]

end Objects

namespace Vault.Keeps

variable {crypto : Crypto} {w : Wallet} {o : Objects} {d : Disk}

theorem parented (keeps : Vault.Keeps crypto (o, d) w) :
    Vault.Keeps crypto (o.parented, d) { w with parent := true } where
  parent := parented_rsa.symm
  storage := parented_storage keeps.storage
  key := parented_hmac.trans keeps.key
  file := keeps.file

theorem made (key : Bytes) (keeps : Vault.Keeps crypto (o, d) w) :
    Vault.Keeps crypto (o.parented.set hmacHandle (some (hmacObject key)), d)
      { w with parent := true, key := some key } where
  parent := by
    rw [Objects.persistent_set, if_neg rsa_ne_hmac, parented_rsa]
  storage := by
    rw [Objects.persistent_set, if_neg rsa_ne_hmac]
    exact parented_storage keeps.storage
  key := by
    rw [Objects.persistent_set, if_pos rfl]
    rfl
  file := keeps.file

theorem cleared (keeps : Vault.Keeps crypto (o, d) w) :
    Vault.Keeps crypto ((o.set hmacHandle none).set rsaHandle none, d)
      { w with parent := false, key := none } where
  parent := by
    rw [Objects.persistent_set, if_pos rfl]
    rfl
  storage := by
    rw [Objects.persistent_set, if_pos rfl]
    exact nofun
  key := by
    rw [Objects.persistent_set, if_neg hmac_ne_rsa, Objects.persistent_set, if_pos rfl]
    rfl
  file := keeps.file

theorem stored (d' : Disk) (keeps : Vault.Keeps crypto (o, d) w) :
    Vault.Keeps crypto (o, d')
      { w with file := d'.sealedFile.map fun data phrase =>
          MasterKey.unsealBytes crypto phrase data } where
  parent := keeps.parent
  storage := keeps.storage
  key := keeps.key
  file := rfl

theorem present (keeps : Vault.Keeps crypto (o, d) w) :
    (o.persistent hmacHandle).isSome = w.key.isSome := by
  rw [keeps.key, Option.isSome_map]

theorem there (keeps : Vault.Keeps crypto (o, d) w) : d.sealedFile.isSome = w.file.isSome := by
  rw [keeps.file, Option.isSome_map]

theorem absent (keeps : Vault.Keeps crypto (o, d) w) : d.sealedFile = none ↔ w.file = none := by
  rw [keeps.file, Option.map_eq_none_iff]

theorem free (keeps : Vault.Keeps crypto (o, d) w) :
    o.persistent hmacHandle = none ↔ w.key = none := by
  rw [keeps.key, Option.map_eq_none_iff]

end Vault.Keeps

section Working

variable {mac : Bytes → Bytes → Bytes} {crypto : Crypto} {policy : PinPolicy} {o : Objects}
  {d : Disk} {v v' : Vault} {uid : UInt32} {ε ε' α β : Type}

/-- The judgement of a part of a call on a machine that works. -/
abbrev Working (mac : Bytes → Bytes → Bytes) (x : Fallible KeyCmd ε α) (Q : Except ε α → Vault → Prop)
    (v : Vault) : Prop :=
  wpx (Vault.works mac) (fun _ => True) x Q v

/-- The judgement of a call. -/
abbrev WorkingCall (mac : Bytes → Bytes → Bytes) (x : Fallible CallCmd ε α)
    (Q : Except ε α → Vault → Prop) (v : Vault) : Prop :=
  wpx (Vault.works mac).labelled (fun _ => True) x Q v

theorem working_call {l : Call} {x : Fallible KeyCmd ε α} {Q : Except ε α → Vault → Prop}
    (part : Working mac x Q v) : WorkingCall mac (x.label l) Q v := wpx_label.2 part

/-- A command of the TPM. -/
theorem working_tpm {c : ObjectCmd} {read : Except TssError c.Out → Except ε α}
    {Q : Except ε α → Vault → Prop}
    (done : Q (read (Objects.exec mac c o).1) ((Objects.exec mac c o).2, d)) :
    Working mac (op (Sum.inl c) read) Q (o, d) := by
  refine ⟨trivial, ?_⟩
  rintro r ⟨o', d'⟩ ⟨answer, same⟩
  obtain rfl : d' = d := same
  obtain ⟨rfl, rfl⟩ := Prod.mk.inj (answer : Objects.exec mac c o = (r, o'))
  exact ⟨trivial, done⟩

/-- A call of the process. -/
theorem working_sys {c : SysCmd} {read : Answer c → Except ε α} {Q : Except ε α → Vault → Prop}
    (done : ∀ r d', Disk.works c d r d' → Q (read r) (o, d')) :
    Working mac (op (Sum.inr c) read) Q (o, d) := by
  refine ⟨trivial, ?_⟩
  rintro r ⟨o', d'⟩ ⟨works, same⟩
  obtain rfl : o' = o := same
  exact ⟨trivial, done r d' works⟩

/-- One that leaves the disk as it is. -/
theorem working_inert {c : SysCmd} {read : Answer c → Except ε α} {Q : Except ε α → Vault → Prop}
    (inert : Inert c) (done : ∀ r, Disk.works c d r d → Q (read r) (o, d)) :
    Working mac (op (Sum.inr c) read) Q (o, d) := by
  refine working_sys fun r d' works => ?_
  obtain rfl := inert_same inert (Disk.works_any works)
  exact done r works

/-! ## The parts -/

theorem working_probe {handle : UInt32} {h : PersistentTpmHandle} {Q : PinResult Bool → Vault → Prop}
    (known : MasterKey.persistentHandle handle = .ok h)
    (done : Q (.ok (o.persistent h).isSome) (o, d)) :
    Working mac (MasterKey.persistentPresent handle) Q (o, d) := by
  unfold MasterKey.persistentPresent
  rw [known, ofResult_ok_bind]
  refine wpx_next_attempt (working_tpm ?_)
  simp only [Objects.exec]
  cases there : (o.persistent h).isSome with
  | true =>
    rw [there] at done
    exact ⟨trivial, done⟩
  | false =>
    rw [there] at done
    exact ⟨trivial, done⟩

theorem working_status {w : Wallet} {Q : PinResult MasterKeyStatus → Vault → Prop}
    (keeps : Vault.Keeps crypto (o, d) w) (done : Q (.ok w.status) (o, d)) :
    Working mac (MasterKey.status policy) Q (o, d) := by
  have same : (⟨d.sealedFile.isSome, (o.persistent rsaHandle).isSome,
      (o.persistent hmacHandle).isSome, MASTER_KEY_SEALED_FILE, MASTER_KEY_RSA_PARENT_HANDLE,
      MASTER_KEY_HMAC_HANDLE⟩ : MasterKeyStatus) = w.status := by
    rw [keeps.there, keeps.present, ← keeps.parent]
    rfl
  unfold MasterKey.status MasterKey.tpmStatus
  refine wpx_next (working_inert trivial ?_)
  rintro _ ⟨-, rfl⟩
  refine wpx_next (wpx_next (working_tpm ?_))
  refine wpx_next (working_probe persistentHandle_rsa ?_)
  refine wpx_next (working_probe persistentHandle_hmac ?_)
  rw [← same] at done
  exact ⟨trivial, trivial, done⟩

theorem working_createRsa {Q : PinResult Unit → Vault → Prop} (free : o.persistent rsaHandle = none)
    (done : Q (.ok ()) (o.set rsaHandle (some rsaParent), d)) :
    Working mac MasterKey.createAndPersistRsaParent Q (o, d) := by
  unfold MasterKey.createAndPersistRsaParent
  refine wpx_next (working_tpm ?_)
  simp only [Objects.exec, Except.mapError]
  rw [persistentHandle_rsa, ofResult_ok_bind]
  refine wpx_next (working_tpm ?_)
  simp only [Objects.exec, Objects.evictControl, free, Option.isSome_none, Bool.false_eq_true,
    if_false]
  exact wpx_next_attempt (working_tpm ⟨trivial, done⟩)

theorem working_createHmac {hmacKey : Vector UInt8 HMAC_KEY_LEN} {Q : PinResult Unit → Vault → Prop}
    {parent : KeyObject} (there : o.persistent rsaHandle = some parent)
    (storage : parent.isParent = true) (free : o.persistent hmacHandle = none)
    (done : Q (.ok ()) (o.set hmacHandle (some (hmacObject hmacKey.toList)), d)) :
    Working mac (MasterKey.createAndPersistHmacKey hmacKey) Q (o, d) := by
  unfold MasterKey.createAndPersistHmacKey
  rw [persistentHandle_rsa, ofResult_ok_bind]
  refine wpx_next (working_tpm ?_)
  simp only [Objects.exec, there, Option.isSome_some, if_true]
  refine wpx_next (working_tpm ?_)
  simp only [Objects.exec, Objects.create, there, storage, if_true]
  refine wpx_next (working_tpm ?_)
  simp only [Objects.exec, Objects.load, there, if_true, Except.mapError]
  rw [persistentHandle_hmac, ofResult_ok_bind]
  refine wpx_next (working_tpm ?_)
  simp only [Objects.exec, Objects.evictControl, free, Option.isSome_none, Bool.false_eq_true,
    if_false]
  exact wpx_next_attempt (working_tpm ⟨trivial, done⟩)

/-- There is a parent after a provisioning, and the key if the handle was free. -/
theorem working_provision {hmacKey : Vector UInt8 HMAC_KEY_LEN} {Q : PinResult Unit → Vault → Prop}
    (storage : ∀ p, o.persistent rsaHandle = some p → p.isParent = true)
    (held : (o.persistent hmacHandle).isSome →
      Q (.error (Wallet.refused "mk_hmac_handle_already_exists")) (o.parented, d))
    (done : o.persistent hmacHandle = none →
      Q (.ok ()) (o.parented.set hmacHandle (some (hmacObject hmacKey.toList)), d)) :
    Working mac (MasterKey.provisionTpmObjects policy hmacKey) Q (o, d) := by
  have second : Working mac (do
      let hmac ← MasterKey.persistentPresent MASTER_KEY_HMAC_HANDLE
      if hmac then throw (.tpmError (.locale "mk_hmac_handle_already_exists"))
      else MasterKey.createAndPersistHmacKey hmacKey) Q (o.parented, d) := by
    refine wpx_next (working_probe persistentHandle_hmac ?_)
    rw [parented_hmac]
    cases there : o.persistent hmacHandle with
    | some x => exact ⟨trivial, held (by rw [there]; rfl)⟩
    | none =>
      obtain ⟨parent, found⟩ := Option.isSome_iff_exists.1 (@parented_rsa o)
      exact working_createHmac found (parented_storage storage _ found)
        (parented_hmac.trans there) (done there)
  unfold MasterKey.provisionTpmObjects
  refine wpx_next (working_tpm ?_)
  simp only [Objects.exec]
  refine wpx_next (working_probe persistentHandle_rsa ?_)
  unfold Objects.parented at second
  cases there : o.persistent rsaHandle with
  | some parent =>
    rw [there, Option.isSome_some, if_pos rfl] at second
    exact second
  | none =>
    rw [there, Option.isSome_none, if_neg Bool.false_ne_true] at second
    exact wpx_next (working_createRsa there second)

theorem working_evict {handle : UInt32} {h : PersistentTpmHandle} {Q : PinResult Unit → Vault → Prop}
    (known : MasterKey.persistentHandle handle = .ok h) (done : Q (.ok ()) (o.set h none, d)) :
    Working mac (MasterKey.evictPersistentIfPresent handle) Q (o, d) := by
  unfold MasterKey.evictPersistentIfPresent
  refine wpx_next (working_probe known ?_)
  cases there : o.persistent h with
  | none =>
    rw [set_none there] at done
    exact ⟨trivial, done⟩
  | some x =>
    dsimp only [Option.isSome]
    rw [if_pos rfl, known, ofResult_ok_bind]
    refine wpx_next (working_tpm ?_)
    simp only [Objects.exec, there, Option.isSome_some, if_true]
    refine wpx_next (working_tpm ?_)
    simp only [Objects.exec, Objects.evictControl, there, Option.isSome_some, and_self, if_true]
    exact ⟨trivial, done⟩

theorem working_clear {Q : PinResult Unit → Vault → Prop}
    (denied : uid ≠ 0 → Q (.error .permissionDenied) (o, d))
    (done : uid = 0 → Q (.ok ()) ((o.set hmacHandle none).set rsaHandle none, d)) :
    Working mac (MasterKey.clearFromTpm policy uid) Q (o, d) := by
  unfold MasterKey.clearFromTpm MasterKey.ensureRootRealUid
  by_cases root : uid = 0
  · rw [if_neg (not_not.2 root), ofResult_ok_bind]
    refine wpx_next (working_tpm ?_)
    refine wpx_next_attempt (working_evict persistentHandle_hmac ?_)
    refine wpx_next_attempt (working_evict persistentHandle_rsa ?_)
    exact ⟨trivial, done root⟩
  · rw [if_pos root]
    exact ⟨trivial, denied root⟩

theorem working_ensureDir {tighten : Bool} {Q : PinResult Unit → Vault → Prop}
    (done : Q (.ok ()) (o, d)) : Working mac (MasterKey.ensureDirForPath tighten) Q (o, d) := by
  unfold MasterKey.ensureDirForPath
  refine wpx_next (working_inert trivial ?_)
  rintro _ ⟨-, rfl⟩
  cases tighten with
  | false => exact ⟨trivial, done⟩
  | true =>
    refine wpx_next_attempt (working_inert trivial fun _ _ => ?_)
    refine wpx_next_attempt (working_inert trivial fun _ _ => ?_)
    exact ⟨trivial, done⟩

/-- Where there is no file the record of the key is written in whole. -/
theorem working_seal {hmacKey : Vector UInt8 HMAC_KEY_LEN} {phrase : Str}
    {Q : PinResult Unit → Vault → Prop} (total : crypto.Total) (bare : d.sealedFile = none)
    (done : ∀ json, Sealed crypto phrase hmacKey.toList json →
      Q (.ok ()) (o, ⟨some (json ++ [10])⟩)) :
    Working mac (MasterKey.sealKeyBytesToPath crypto hmacKey phrase) Q (o, d) := by
  obtain ⟨file⟩ := d
  subst bare
  unfold MasterKey.sealKeyBytesToPath
  refine wpx_next (working_ensureDir ?_)
  refine wpx_next (working_inert trivial fun salt _ => ?_)
  refine wpx_next (working_inert trivial fun nonce _ => ?_)
  obtain ⟨aesKey, hashed⟩ := total.hashPasswordInto phrase salt.toList (by simp)
  obtain ⟨ciphertext, encrypted⟩ :=
    total.encrypt aesKey nonce.toList hmacKey.toList (by simp) (by simp)
  have derived : MasterKey.deriveAesKeyFromPhrase crypto phrase salt.toList = .ok aesKey := by
    rw [MasterKey.deriveAesKeyFromPhrase, hashed]
    rfl
  simp only [derived, encrypted, Except.mapError, ofResult_ok_bind]
  refine wpx_next (working_inert trivial fun createdUnixMs _ => ?_)
  obtain ⟨json, written⟩ := total.toVec ⟨SEALED_FILE_VERSION, createdUnixMs,
    crypto.encode salt.toList, crypto.encode nonce.toList, crypto.encode ciphertext⟩
  simp only [written, ofResult_ok_bind]
  refine wpx_next (working_sys ?_)
  rintro _ _ ⟨rfl, rfl⟩
  refine wpx_next (working_sys ?_)
  rintro _ _ ⟨rfl, rfl⟩
  refine wpx_next (working_sys ?_)
  rintro _ _ ⟨rfl, rfl⟩
  refine wpx_next_attempt (working_inert trivial fun _ _ => ?_)
  refine wpx_next_attempt (working_inert trivial fun _ _ => ?_)
  exact ⟨trivial, done json (.made derived encrypted written)⟩

/-! ## The calls -/

/-- What is answered and left is what the wallet answers, and keeps. -/
def Answered (mac : Bytes → Bytes → Bytes) (crypto : Crypto) (uid : UInt32) (w : Wallet)
    (op : MasterKeyOp) (r : PinResult op.Out) (v : Vault) : Prop :=
  ∃ w', Wallet.Answers mac uid w op r w' ∧ v.Keeps crypto w'

variable {w : Wallet}

theorem wallet_init (lawful : crypto.Lawful) (total : crypto.Total)
    (keeps : Vault.Keeps crypto (o, d) w) :
    WorkingCall mac (MasterKey.init policy crypto uid) (Answered mac crypto uid w .init) (o, d) := by
  unfold MasterKey.init MasterKey.ensureRootRealUid
  by_cases root : uid = 0
  swap
  · rw [if_pos root]
    exact ⟨trivial, w, .denied trivial root, keeps⟩
  rw [if_neg (not_not.2 root), ofResult_ok_bind]
  refine wpx_next (working_call (working_inert trivial ?_))
  rintro _ ⟨-, rfl⟩
  cases file : d.sealedFile with
  | some data =>
    have there : w.file.isSome := by rw [← keeps.there, file]; rfl
    exact ⟨trivial, w, .sealedBefore root there, keeps⟩
  | none =>
  have bare := keeps.absent.1 file
  dsimp only [Option.isSome]
  rw [if_neg Bool.false_ne_true]
  refine wpx_next (working_call (working_inert trivial fun hmacKey _ => ?_))
  refine wpx_next (working_call (working_inert trivial ?_))
  rintro _ ⟨-, phrase, rfl⟩
  refine wpx_next (working_call (working_provision keeps.storage ?_ ?_))
  · intro held
    exact ⟨_, .heldBefore root bare (keeps.present ▸ held), keeps.parented⟩
  intro free
  refine wpx_next_attempt (working_call (working_ensureDir ?_))
  refine wpx_next_attempt (working_call (working_seal total file fun json sealed_ => ?_))
  obtain ⟨opens, only⟩ := unsealBytes_whole lawful sealed_ (.inr rfl)
  have made := (keeps.made hmacKey.toList).stored ⟨some (json ++ [10])⟩
  refine wpx_next (working_call (working_status made ?_))
  exact ⟨trivial, _, .made root bare (keeps.free.1 free) (by simp) ⟨opens, only⟩, made⟩

theorem wallet_import {phrase : Str} (keeps : Vault.Keeps crypto (o, d) w) :
    WorkingCall mac (MasterKey.importToTpm policy crypto uid phrase)
      (Answered mac crypto uid w (.importToTpm phrase)) (o, d) := by
  unfold MasterKey.importToTpm MasterKey.ensureRootRealUid
  by_cases root : uid = 0
  swap
  · rw [if_pos root]
    exact ⟨trivial, w, .denied trivial root, keeps⟩
  rw [if_neg (not_not.2 root), ofResult_ok_bind]
  refine wpx_next (working_call (working_status keeps ?_))
  dsimp only [Wallet.status]
  cases parent : w.parent with
  | true => exact ⟨trivial, w, .parented root parent, keeps⟩
  | false =>
  rw [if_neg Bool.false_ne_true]
  cases key : w.key with
  | some key' => exact ⟨trivial, w, .held root parent (by rw [key]; rfl), keeps⟩
  | none =>
  dsimp only [Option.isSome]
  rw [if_neg Bool.false_ne_true]
  cases file : d.sealedFile with
  | none =>
    have bare := keeps.absent.1 file
    rw [bare]
    exact ⟨trivial, w, .nothing root parent key bare, keeps⟩
  | some data =>
  have there : w.file = some fun phrase => MasterKey.unsealBytes crypto phrase data := by
    rw [keeps.file, file]
    rfl
  rw [there]
  dsimp only [Option.isSome]
  rw [if_neg (by decide)]
  have read : Working mac (MasterKey.unsealKeyBytesFromPath crypto phrase)
      (fun r v => r = MasterKey.unsealBytes crypto phrase data ∧ v = (o, d)) (o, d) := by
    unfold MasterKey.unsealKeyBytesFromPath
    refine wpx_next (working_inert trivial fun r answer => ?_)
    obtain ⟨-, answer⟩ := answer
    rw [file] at answer
    obtain rfl := answer
    exact ⟨trivial, rfl, rfl⟩
  refine wpx_next (working_call (wpx_mono read ?_))
  rintro _ _ - ⟨rfl, rfl⟩
  cases opened : MasterKey.unsealBytes crypto phrase data with
  | error e => exact ⟨w, .closed root parent key there opened, keeps⟩
  | ok bytes =>
  dsimp only
  by_cases len : bytes.length = HMAC_KEY_LEN
  swap
  · rw [dif_neg len]
    exact ⟨trivial, w, .odd root parent key there opened len, keeps⟩
  rw [dif_pos len]
  refine wpx_next (working_call (working_provision keeps.storage ?_ fun _ => ?_))
  · intro held
    rw [keeps.present, key] at held
    cases held
  have made := keeps.made bytes
  refine working_call (working_status made ?_)
  exact ⟨_, .imported root parent key there opened len, made⟩

theorem wallet_clear (keeps : Vault.Keeps crypto (o, d) w) :
    Working mac (MasterKey.clearFromTpm policy uid) (Answered mac crypto uid w .clearFromTpm)
      (o, d) :=
  working_clear (fun user => ⟨w, .denied trivial user, keeps⟩)
    fun root => ⟨_, .cleared root, keeps.cleared⟩

theorem wallet_clearFromDisk (keeps : Vault.Keeps crypto (o, d) w) :
    Working mac (MasterKey.clearFromDisk uid) (Answered mac crypto uid w .clearFromDisk) (o, d) := by
  unfold MasterKey.clearFromDisk MasterKey.ensureRootRealUid
  by_cases root : uid = 0
  · rw [if_neg (not_not.2 root), ofResult_ok_bind]
    refine working_sys fun r d' works => ?_
    -- a file that is not there counts as removed
    obtain ⟨removed, absent⟩ : (r = .ok () ∨ ∃ text, r = .error ⟨.notFound, text⟩) ∧
        d'.sealedFile = none := by
      obtain ⟨file⟩ := d
      cases file with
      | none =>
        obtain ⟨missing, rfl⟩ := works
        exact ⟨.inr missing, rfl⟩
      | some data =>
        obtain ⟨done, rfl⟩ := works
        exact ⟨.inl done, rfl⟩
    have gone := keeps.stored d'
    rw [absent] at gone
    obtain rfl | ⟨text, rfl⟩ := removed
    · exact ⟨_, .forgotten root, gone⟩
    · exact ⟨_, .forgotten root, gone⟩
  · rw [if_pos root]
    exact ⟨trivial, w, .denied trivial root, keeps⟩

theorem wallet_derive {username : Str} (keeps : Vault.Keeps crypto (o, d) w) :
    Working mac (MasterKey.deriveUserToken policy username)
      (Answered mac crypto uid w (.deriveUserToken username)) (o, d) := by
  unfold MasterKey.deriveUserToken
  refine wpx_next (working_tpm ?_)
  simp only [Objects.exec, Except.mapError]
  rw [persistentHandle_hmac, ofResult_ok_bind]
  refine wpx_next (working_tpm ?_)
  simp only [Objects.exec]
  cases key : w.key with
  | none =>
    rw [keeps.free.2 key]
    exact ⟨w, .unheld key, keeps⟩
  | some bytes =>
  have held : o.persistent hmacHandle = some (hmacObject bytes) := by
    rw [keeps.key, key]
    rfl
  simp only [held, Option.isSome_some, if_true, Except.mapError]
  unfold maxBuffer
  by_cases short : (asBytes username).length ≤ 1024
  swap
  · rw [if_neg short]
    exact ⟨trivial, w, .long key (Nat.lt_of_not_le short), keeps⟩
  simp only [if_pos short, ofResult_ok_bind]
  refine wpx_next (working_tpm ?_)
  refine wpx_next_attempt (working_tpm ?_)
  simp only [Objects.exec, Objects.hmac, held, hmacObject, MasterKey.hmacKeyPublic, if_true]
  refine wpx_next (working_tpm ?_)
  exact ⟨trivial, w, .derived key short, keeps⟩

theorem wallet_call (lawful : crypto.Lawful) (total : crypto.Total) (op : MasterKeyOp)
    (keeps : Vault.Keeps crypto (o, d) w) :
    WorkingCall mac (MasterKey.program policy crypto uid op) (Answered mac crypto uid w op)
      (o, d) := by
  cases op with
  | status => exact working_call (working_status keeps ⟨w, .told, keeps⟩)
  | init => exact wallet_init lawful total keeps
  | clearFromTpm => exact working_call (wallet_clear keeps)
  | clearFromDisk => exact working_call (wallet_clearFromDisk keeps)
  | importToTpm phrase => exact wallet_import keeps
  | deriveUserToken username => exact working_call (wallet_derive keeps)

end Working

/-! ## Runs -/

/-- Nothing failed in the call. -/
def KeyCall.Works (mac : Bytes → Bytes → Bytes) (call : KeyCall) : Prop :=
  ∀ event ∈ call.events, Vault.works mac event.op.op event.before event.answer event.after

section Runs

variable {mac : Bytes → Bytes → Bytes} {crypto : Crypto} {w : Wallet} {v v' : Vault}
  {calls : List KeyCall}

/-- A call on a machine where nothing fails. -/
theorem answered_runs {policy : PinPolicy} {uid : UInt32} {op : MasterKeyOp}
    {events : List (Event CallCmd Vault)} {r : PinResult op.Out} (lawful : crypto.Lawful)
    (total : crypto.Total) (keeps : v.Keeps crypto w)
    (run : (MasterKey.program policy crypto uid op).run.Runs (Vault.works mac).labelled v events r v') :
    Answered mac crypto uid w op r v' :=
  run.post (wallet_call lawful total op keeps)

theorem KeyCall.answered {call : KeyCall} (lawful : crypto.Lawful) (total : crypto.Total)
    (keeps : call.before.Keeps crypto w) (goes : call.Goes mac crypto) (works : call.Works mac) :
    Answered mac crypto call.uid w call.op call.result call.after :=
  answered_runs lawful total keeps ((goes.confined works).mono fun _ _ _ _ act => act.2)

/-- Calls on a machine where nothing fails are answered, one after the other, as by the wallet
that the vault keeps, with every refusal. -/
theorem master_key_refines_wallet (lawful : crypto.Lawful) (total : crypto.Total)
    (keeps : v.Keeps crypto w) (run : KeyRun mac crypto v calls v')
    (works : ∀ call ∈ calls, call.Works mac) :
    ∃ w', Wallet.Course mac w calls w' ∧ v'.Keeps crypto w' := by
  induction run generalizing w with
  | stop => exact ⟨w, .stop w, keeps⟩
  | call goes _ ih =>
    obtain ⟨first, others⟩ := List.forall_mem_cons.1 works
    obtain ⟨w₁, answers, kept⟩ := KeyCall.answered lawful total keeps goes first
    obtain ⟨w', rest, final⟩ := ih kept others
    exact ⟨w', .call answers rest, final⟩

/-- The file stays while root does not remove it. -/
theorem Wallet.Course.keeps_file {w' : Wallet} (course : Wallet.Course mac w calls w')
    (kept : ∀ call ∈ calls, call.op = .clearFromDisk → call.uid ≠ 0) (there : w.file.isSome) :
    w'.file = w.file := by
  induction course with
  | stop => rfl
  | @call call calls w w₁ w' answers _ ih =>
    obtain ⟨first, others⟩ := List.forall_mem_cons.1 kept
    obtain ⟨policy, uid, op, before, events, r, after⟩ := call
    dsimp only at answers first
    have same : w₁.file = w.file := by
      cases answers with
      | made root bare => rw [bare] at there; cases there
      | forgotten root => exact absurd root (first rfl)
      | _ => rfl
    exact (ih others (same ▸ there)).trans same

/-- The phrase of an init brings its key back: whatever calls there were since, short of a removal
of the file by root, once the TPM is cleared an import of the phrase succeeds. -/
theorem phrase_recovers {policy policy₃ policy₄ : PinPolicy} {uid : UInt32}
    {made : MasterKeyInitResult} {v₁ v₂ v₃ v₄ : Vault} {cleared : PinResult Unit}
    {imported : PinResult MasterKeyStatus} {events events₃ events₄ : List (Event CallCmd Vault)}
    (lawful : crypto.Lawful) (total : crypto.Total)
    (keeps : v.Keeps crypto w)
    (inits : (MasterKey.program policy crypto uid .init).run.Runs (Vault.works mac).labelled v events
      (.ok made) v₁)
    (run : KeyRun mac crypto v₁ calls v₂) (works : ∀ call ∈ calls, call.Works mac)
    (kept : ∀ call ∈ calls, call.op = .clearFromDisk → call.uid ≠ 0)
    (clears : (MasterKey.program policy₃ crypto 0 .clearFromTpm).run.Runs (Vault.works mac).labelled
      v₂ events₃ cleared v₃)
    (imports : (MasterKey.program policy₄ crypto 0 (.importToTpm made.recoveryPhrase)).run.Runs
      (Vault.works mac).labelled v₃ events₄ imported v₄) :
    (∃ st, imported = .ok st) ∧ ∃ key, v₁.1.persistent hmacHandle = some (hmacObject key) ∧
      v₄.1.persistent hmacHandle = some (hmacObject key) := by
  obtain ⟨w₁, answers, keeps₁⟩ := answered_runs lawful total keeps inits
  cases answers with
  | @made key phrase file _ _ _ len seals =>
  obtain ⟨w₂, course, keeps₂⟩ := master_key_refines_wallet lawful total keeps₁ run works
  have file₂ : w₂.file = some file := course.keeps_file kept rfl
  obtain ⟨w₃, answers, keeps₃⟩ := answered_runs lawful total keeps₂ clears
  cases answers with
  | denied _ user => exact absurd rfl user
  | cleared =>
  obtain ⟨w₄, answers, keeps₄⟩ := answered_runs lawful total keeps₃ imports
  have held : v₁.1.persistent hmacHandle = some (hmacObject key) := keeps₁.key
  dsimp only at answers
  cases answers with
  | denied _ user => exact absurd rfl user
  | parented _ there => cases there
  | held _ _ there => cases there
  | nothing _ _ _ bare => cases file₂.symm.trans bare
  | closed _ _ _ there closed =>
    cases file₂.symm.trans there
    cases seals.opens.symm.trans closed
  | odd _ _ _ there opened odd =>
    cases file₂.symm.trans there
    exact absurd (seals.only _ _ opened ▸ len) odd
  | imported _ _ _ there opened =>
    cases file₂.symm.trans there
    obtain rfl := seals.only _ _ opened
    exact ⟨⟨_, rfl⟩, _, held, keeps₄.key⟩

end Runs

/-! ## Samples -/

/-- A number in ones, and a zero after it. -/
def tally (n : Nat) : Bytes := List.replicate n 1 ++ [0]

def tallies : Bytes → Nat → List Nat
  | [], _ => []
  | x :: rest, n => if x = 0 then n :: tallies rest 0 else tallies rest (n + 1)

theorem tallies_tally {n k : Nat} {rest : Bytes} :
    tallies (tally n ++ rest) k = (n + k) :: tallies rest 0 := by
  unfold tally
  induction n generalizing k with
  | zero => simp [tallies]
  | succ n ih =>
    rw [List.replicate_succ, List.cons_append, List.cons_append, tallies, if_neg (by decide), ih]
    congr 1
    omega

theorem tallies_all (numbers : List Nat) : tallies (numbers.flatMap tally) 0 = numbers := by
  induction numbers with
  | nil => rfl
  | cons n numbers ih => rw [List.flatMap_cons, tallies_tally, ih, Nat.add_zero]

theorem tallies_bytes {numbers : List Nat} : ∀ x ∈ numbers.flatMap tally, x ≠ 2 := by
  intro x member
  obtain ⟨n, -, member⟩ := List.mem_flatMap.1 member
  rcases List.mem_append.1 member with one | zero
  · rw [List.eq_of_mem_replicate one]
    decide
  · rw [List.mem_singleton.1 zero]
    decide

/-- The record of a sealed file in numbers. -/
def SealedMasterKeyFile.numbers (x : SealedMasterKeyFile) : List Nat :=
  x.version.toNat :: x.createdUnixMs.toNat :: x.saltB64.length :: x.nonceB64.length ::
    (x.saltB64 ++ x.nonceB64 ++ x.ciphertextB64).map Char.toNat

def SealedMasterKeyFile.ofNumbers : List Nat → Except Str SealedMasterKeyFile
  | version :: created :: salt :: nonce :: text =>
    let chars := text.map Char.ofNat
    .ok ⟨.ofNat version, .ofNat created, chars.take salt, (chars.drop salt).take nonce,
      (chars.drop salt).drop nonce⟩
  | _ => .error []

theorem ofNumbers_numbers (x : SealedMasterKeyFile) :
    SealedMasterKeyFile.ofNumbers x.numbers = .ok x := by
  have chars : ∀ text : Str, (text.map Char.toNat).map Char.ofNat = text := by
    intro text
    rw [List.map_map]
    exact (List.map_congr_left fun c _ => Char.ofNat_toNat c).trans (List.map_id text)
  obtain ⟨version, createdUnixMs, salt, nonce, ciphertext⟩ := x
  simp only [SealedMasterKeyFile.numbers, SealedMasterKeyFile.ofNumbers, chars, UInt32.ofNat_toNat,
    UInt64.ofNat_toNat, List.append_assoc, List.take_left', List.drop_left']

/-- Crates that refuse nothing, and keep what they promise. -/
def plainCrypto : Crypto where
  hashPasswordInto phrase salt := .ok (phrase ++ salt)
  encrypt key _ data := if data.length = HMAC_KEY_LEN then .ok (data ++ key) else .error []
  decrypt key _ data :=
    if data.drop HMAC_KEY_LEN = key then .ok (data.take HMAC_KEY_LEN) else .error []
  encode := sampleCrypto.encode
  decode := sampleCrypto.decode
  toVec x := .ok (x.numbers.flatMap tally ++ [2])
  fromSlice data :=
    if 2 ∈ data then SealedMasterKeyFile.ofNumbers (tallies (data.takeWhile (· ≠ 2)) 0)
    else .error []

theorem plainCrypto_total : plainCrypto.Total where
  hashPasswordInto _ _ _ := ⟨_, rfl⟩
  encrypt _ _ _ _ len := ⟨_, if_pos len⟩
  toVec _ := ⟨_, rfl⟩

theorem plainCrypto_reads {x : SealedMasterKeyFile} {rest : Bytes} :
    plainCrypto.fromSlice (x.numbers.flatMap tally ++ 2 :: rest) = .ok x := by
  have upto : (x.numbers.flatMap tally ++ 2 :: rest).takeWhile (· ≠ 2) =
      x.numbers.flatMap tally := by
    rw [List.takeWhile_append_of_pos (by simpa using tallies_bytes)]
    simp
  simp only [plainCrypto]
  rw [if_pos (by simp), upto, tallies_all, ofNumbers_numbers]

theorem plainCrypto_lawful : plainCrypto.Lawful where
  decode_encode := sampleCrypto_lawful.decode_encode
  fromSlice_toVec x json written := by
    cases written
    exact plainCrypto_reads
  fromSlice_newline x json written := by
    cases written
    rw [List.append_assoc]
    exact plainCrypto_reads
  fromSlice_cut x json part written prefix_ ne := by
    cases written
    have short := (List.prefix_concat_iff.1 prefix_).resolve_left ne
    have none_ : 2 ∉ part := fun member => tallies_bytes 2 (short.subset member) rfl
    exact ⟨[], if_neg none_⟩
  decrypt_encrypt key nonce data ciphertext encrypted := by
    simp only [plainCrypto] at encrypted ⊢
    by_cases len : data.length = HMAC_KEY_LEN
    · rw [if_pos len] at encrypted
      cases encrypted
      rw [← len, List.drop_left, if_pos rfl, List.take_left]
    · rw [if_neg len] at encrypted
      cases encrypted
  decrypt_other phrase other salt key otherKey nonce data ciphertext ne hashed hashed' encrypted := by
    cases hashed
    cases hashed'
    simp only [plainCrypto] at encrypted ⊢
    by_cases len : data.length = HMAC_KEY_LEN
    · rw [if_pos len] at encrypted
      cases encrypted
      rw [← len, List.drop_left, if_neg]
      · exact ⟨[], rfl⟩
      · exact fun same => ne (asBytes_injective (List.append_cancel_right same))
    · rw [if_neg len] at encrypted
      cases encrypted

/-- The call on a machine where nothing fails. -/
def KeyCall.flawless (crypto : Crypto) (uid : UInt32) (op : MasterKeyOp) (v : Vault) : KeyCall where
  policy := .default
  uid
  op
  before := v
  events := (MasterKey.program .default crypto uid op).run.trace
    (Handler.labelled (Vault.exec sampleMac)) v
  result := ((MasterKey.program .default crypto uid op).run.run
    (Handler.labelled (Vault.exec sampleMac)) v).1
  after := ((MasterKey.program .default crypto uid op).run.run
    (Handler.labelled (Vault.exec sampleMac)) v).2

section Flawless

variable {crypto : Crypto} {uid : UInt32} {op : MasterKeyOp} {v : Vault}

theorem flawless_runs : (MasterKey.program .default crypto uid op).run.Runs
    (Vault.works sampleMac).labelled v (KeyCall.flawless crypto uid op v).events
    (KeyCall.flawless crypto uid op v).result (KeyCall.flawless crypto uid op v).after := by
  have within : Within (Handler.labelled (Vault.exec sampleMac) : Handler CallCmd Vault) id
      (Vault.works sampleMac).labelled := fun c v => Vault.exec_works c.op v
  have run := Prog.runs_run within (MasterKey.program .default crypto uid op).run v
  simp only [id, List.map_id'] at run
  exact run

theorem flawless_goes : (KeyCall.flawless crypto uid op v).Goes sampleMac crypto :=
  flawless_runs.mono fun _ _ _ _ works => Vault.works_any works

theorem flawless_works : (KeyCall.flawless crypto uid op v).Works sampleMac := flawless_runs.acts

end Flawless

/-- Calls in turn. -/
def keyCalls (crypto : Crypto) : Vault → List (UInt32 × MasterKeyOp) → List KeyCall
  | _, [] => []
  | v, (uid, op) :: rest =>
    .flawless crypto uid op v :: keyCalls crypto (KeyCall.flawless crypto uid op v).after rest

theorem keyCalls_run {crypto : Crypto} {v : Vault} {turns : List (UInt32 × MasterKeyOp)} :
    (∃ v', KeyRun sampleMac crypto v (keyCalls crypto v turns) v') ∧
      ∀ call ∈ keyCalls crypto v turns, call.Works sampleMac := by
  induction turns generalizing v with
  | nil => exact ⟨⟨v, .stop v⟩, nofun⟩
  | cons turn rest ih =>
    obtain ⟨uid, op⟩ := turn
    obtain ⟨⟨v', run⟩, works⟩ := @ih (KeyCall.flawless crypto uid op v).after
    exact ⟨⟨v', .call flawless_goes run⟩, List.forall_mem_cons.2 ⟨flawless_works, works⟩⟩

theorem emptyVault_keeps : emptyVault.Keeps plainCrypto ⟨false, none, none⟩ where
  parent := rfl
  storage := nofun
  key := rfl
  file := rfl

/-- A user who may not clear, a token, a phrase that is not the one, and a second init. -/
def walletTurns : List (UInt32 × MasterKeyOp) :=
  [(0, .init), (1000, .clearFromTpm), (1000, .deriveUserToken "alice".toList), (0, .clearFromTpm),
    (0, .importToTpm "zoo".toList), (0, .init), (1000, .status)]

theorem master_key_refines_wallet_once : ∃ v' w',
    KeyRun sampleMac plainCrypto emptyVault (keyCalls plainCrypto emptyVault walletTurns) v' ∧
      Wallet.Course sampleMac ⟨false, none, none⟩ (keyCalls plainCrypto emptyVault walletTurns) w' ∧
      v'.Keeps plainCrypto w' := by
  obtain ⟨⟨v', run⟩, works⟩ := @keyCalls_run plainCrypto emptyVault walletTurns
  obtain ⟨w', course, keeps⟩ := master_key_refines_wallet plainCrypto_lawful plainCrypto_total
    emptyVault_keeps run works
  exact ⟨v', w', run, course, keeps⟩

/-- The first key, and what is tried on it. -/
def wonKey : KeyCall := .flawless plainCrypto 0 .init emptyVault

def triedOnKey : List KeyCall := keyCalls plainCrypto wonKey.after
  [(1000, .clearFromDisk), (1000, .deriveUserToken "alice".toList), (0, .init), (0, .clearFromTpm)]

theorem phrase_recovers_once : ∃ made v₂, wonKey.result = .ok made ∧
    KeyRun sampleMac plainCrypto wonKey.after triedOnKey v₂ ∧
    let lost := KeyCall.flawless plainCrypto 0 .clearFromTpm v₂
    let back := KeyCall.flawless plainCrypto 0 (.importToTpm made.recoveryPhrase) lost.after
    (∃ st, back.result = .ok st) ∧ ∃ key,
      wonKey.after.1.persistent hmacHandle = some (hmacObject key) ∧
        back.after.1.persistent hmacHandle = some (hmacObject key) := by
  obtain ⟨made, won⟩ : ∃ made, wonKey.result = .ok made := ⟨_, rfl⟩
  have inits := @flawless_runs plainCrypto 0 .init emptyVault
  change Prog.Runs _ _ _ _ wonKey.result _ at inits
  rw [won] at inits
  obtain ⟨⟨v₂, run⟩, works⟩ := @keyCalls_run plainCrypto wonKey.after
    [(1000, .clearFromDisk), (1000, .deriveUserToken "alice".toList), (0, .init), (0, .clearFromTpm)]
  refine ⟨made, v₂, won, run, ?_⟩
  refine phrase_recovers plainCrypto_lawful plainCrypto_total emptyVault_keeps inits run works ?_
    flawless_runs flawless_runs
  intro call member clears
  simp only [keyCalls, List.mem_cons, List.not_mem_nil, or_false] at member
  rcases member with rfl | rfl | rfl | rfl
  · exact (by decide : (1000 : UInt32) ≠ 0)
  all_goals cases clears

end Pinpam
