import Pinpam.Core.Error
import Pinpam.Effect.Sum

/-!
# Where the master key is kept

The persistent objects of the TPM and the sealed file on disk, with the calls that
`master_key` makes. Transient objects are carried by the caller, as sessions are. The
calls of the process answer at will within what a disk may do (`Disk.any`): a query that
fails reads as absence, and a write that fails may have written a part.
-/

namespace Pinpam
set_option autoImplicit false
open Pinpam.Effect

/-! ## Persistent objects -/

/-- A handle of the persistent range. -/
structure PersistentTpmHandle where
  val : UInt32
  low : 0x81000000 ≤ val
  high : val ≤ 0x81FFFFFF
  deriving DecidableEq

/-- `PersistentTpmHandle::new`. -/
def PersistentTpmHandle.new (value : UInt32) : Except TssError PersistentTpmHandle :=
  if h : 0x81000000 ≤ value ∧ value ≤ 0x81FFFFFF then .ok ⟨value, h.1, h.2⟩
  else .error (.wrapper .invalidParam)

structure ObjectAttributes where
  fixedTpm : Bool
  fixedParent : Bool
  sensitiveDataOrigin : Bool
  userWithAuth : Bool
  restricted : Bool
  decrypt : Bool
  signEncrypt : Bool
  deriving DecidableEq, Repr

inductive SymmetricDefinitionObject where
  | aes256Cfb | other (code : Nat)
  deriving DecidableEq, Repr

inductive KeyedHashScheme where
  | hmacSha256 | other (code : Nat)
  deriving DecidableEq, Repr

/-- The type of an object with its parameters and `unique` field. -/
inductive PublicParameters where
  | rsa (symmetric : SymmetricDefinitionObject) (keyBits : Nat)
  | keyedHash (scheme : KeyedHashScheme) (unique : Bytes)
  deriving DecidableEq, Repr

/-- A public area; the name algorithm is SHA-256. -/
structure Public where
  attributes : ObjectAttributes
  parameters : PublicParameters
  deriving DecidableEq, Repr

inductive KeyObject where
  /-- derived from the owner seed by the template -/
  | primary (pub : Public)
  /-- made with the bytes given as its sensitive area -/
  | keyedHash (pub : Public) (key : Bytes)
  deriving DecidableEq, Repr

def KeyObject.pub : KeyObject → Public
  | .primary pub | .keyedHash pub _ => pub

/-- A storage key: other objects may be made under it. -/
def KeyObject.isParent (x : KeyObject) : Bool :=
  x.pub.attributes.restricted && x.pub.attributes.decrypt && !x.pub.attributes.signEncrypt

/-- What `Create` returns; the private part is only good under its parent. -/
structure Created where
  parent : KeyObject
  pub : Public
  sensitive : Bytes
  deriving DecidableEq, Repr

/-- An `ObjectHandle` of the context. -/
inductive ObjectHandle where
  | transient (object : KeyObject)
  | persistent (handle : PersistentTpmHandle)

inductive ObjectCmd where
  | connect (tcti : Str)
  | trFromTpmPublic (handle : PersistentTpmHandle)
  | createPrimary (pub : Public)
  | create (parent : PersistentTpmHandle) (pub : Public) (sensitive : Bytes)
  | load (parent : PersistentTpmHandle) (created : Created)
  | evictControl (object : ObjectHandle) (handle : PersistentTpmHandle)
  | flushContext
  | startAuthSession
  | hmac (object : PersistentTpmHandle) (buffer : Bytes)

/-- The result of a command; an eviction gives no handle. -/
@[reducible] def ObjectCmd.Out : ObjectCmd → Type
  | .connect _ | .trFromTpmPublic _ | .flushContext | .startAuthSession => Unit
  | .createPrimary _ | .load .. => KeyObject
  | .create .. => Created
  | .evictControl .. => Option PersistentTpmHandle
  | .hmac .. => Bytes

instance : Interface ObjectCmd where
  Answer c := Except TssError c.Out

/-- The persistent objects of the TPM. -/
structure Objects where
  persistent : PersistentTpmHandle → Option KeyObject

namespace Objects

def empty : Objects := ⟨fun _ => none⟩

def set (o : Objects) (h : PersistentTpmHandle) (x : Option KeyObject) : Objects :=
  ⟨fun j => if j = h then x else o.persistent j⟩

@[simp] theorem persistent_set {o : Objects} {h j : PersistentTpmHandle} {x : Option KeyObject} :
    (o.set h x).persistent j = if j = h then x else o.persistent j := rfl

/-- The answers to an object of the wrong type, with wrong attributes, or that does not
belong to its parent. -/
def wrongType : ResponseKind := .other 0x8A

def wrongAttributes : ResponseKind := .other 0x82

def wrongIntegrity : ResponseKind := .other 0x9F

def create (o : Objects) (parent : PersistentTpmHandle) (pub : Public) (sensitive : Bytes) :
    Except TssError Created :=
  match o.persistent parent with
  | none => refuse .handle
  | some x =>
    if x.isParent then
      (if pub.attributes.sensitiveDataOrigin then refuse wrongAttributes else .ok ⟨x, pub, sensitive⟩)
    else refuse wrongType

def load (o : Objects) (parent : PersistentTpmHandle) (created : Created) : Except TssError KeyObject :=
  match o.persistent parent with
  | none => refuse .handle
  | some x => if x = created.parent then .ok (.keyedHash created.pub created.sensitive)
    else refuse wrongIntegrity

/-- `TPM2_EvictControl`: a transient object is made persistent, a persistent one removed. -/
def evictControl (o : Objects) (h : PersistentTpmHandle) :
    ObjectHandle → Except TssError (Option PersistentTpmHandle) × Objects
  | .transient x => if (o.persistent h).isSome then (refuse .nvDefined, o)
    else (.ok (some h), o.set h (some x))
  | .persistent j => if j = h ∧ (o.persistent h).isSome then (.ok none, o.set h none)
    else (refuse .handle, o)

def hmac (mac : Bytes → Bytes → Bytes) (o : Objects) (h : PersistentTpmHandle) (buffer : Bytes) :
    Except TssError Bytes :=
  match o.persistent h with
  | none => refuse .handle
  | some (.keyedHash pub key) => if pub.attributes.signEncrypt then .ok (mac key buffer)
    else refuse wrongAttributes
  | some (.primary _) => refuse wrongType

/-- A TPM answering a command; `mac` is its HMAC. -/
def exec (mac : Bytes → Bytes → Bytes) : Handler ObjectCmd Objects
  | .connect _, o | .flushContext, o | .startAuthSession, o => (.ok (), o)
  | .trFromTpmPublic h, o => (if (o.persistent h).isSome then .ok () else refuse .handle, o)
  | .createPrimary pub, o => (.ok (.primary pub), o)
  | .create parent pub sensitive, o => (o.create parent pub sensitive, o)
  | .load parent created, o => (o.load parent created, o)
  | .evictControl object h, o => o.evictControl h object
  | .hmac h buffer, o => (o.hmac mac h buffer, o)

end Objects

instance : Failing ObjectCmd Fault where
  failAnswer fault _ := .error fault.error

/-! ## The disk and the process -/

inductive ErrorKind where
  | notFound | alreadyExists | other
  deriving DecidableEq, Repr

/-- `std::io::Error`. -/
structure IoError where
  kind : ErrorKind
  text : Str
  deriving DecidableEq

/-- The sealed file and its directory. -/
inductive Target where
  | dir | file

/-- The calls of the process; the path is that of the sealed file. -/
inductive SysCmd where
  | exists
  | fillBytes (len : Nat)
  /-- `Bip39Mnemonic::builder`, 24 English words -/
  | mnemonic
  | nowUnixMs
  | createDirAll
  | setPermissions (target : Target) (mode : Nat)
  | chown (target : Target) (uid gid : UInt32)
  | createNew (mode : Nat)
  | writeAll (data : Bytes)
  | read
  | removeFile

instance : Interface SysCmd where
  Answer
    | .exists => Bool
    | .fillBytes len => Vector UInt8 len
    | .mnemonic => Except Str Str
    | .nowUnixMs => UInt64
    | .createDirAll | .setPermissions .. | .chown .. | .createNew _ | .writeAll _ | .removeFile =>
      Except IoError Unit
    | .read => Except IoError Bytes

/-- The contents of the sealed file, if there is one. -/
structure Disk where
  sealedFile : Option Bytes

namespace Disk

def write (d : Disk) (data : Bytes) : Disk := ⟨d.sealedFile.map (· ++ data)⟩

/-- Any disk, clock and source of random numbers. -/
def any : Behaviour SysCmd Disk
  | .exists, d, r, d' => d' = d ∧ (r = true → d.sealedFile.isSome)
  | .createNew _, d, r, d' =>
    match r with
    | .ok () => d.sealedFile = none ∧ d' = ⟨some []⟩
    | .error _ => d' = d
  | .writeAll data, d, r, d' =>
    match r with
    | .ok () => d' = d.write data
    | .error _ => ∃ part, part <+: data ∧ part ≠ data ∧ d' = d.write part
  | .read, d, r, d' => d' = d ∧ ∀ data, r = .ok data → d.sealedFile = some data
  | .removeFile, d, r, d' =>
    match r with
    | .ok () => d.sealedFile.isSome ∧ d' = ⟨none⟩
    | .error e => d' = d ∧ (e.kind = .notFound → d.sealedFile = none)
  | _, d, _, d' => d' = d

end Disk

/-! ## Both -/

abbrev KeyCmd := ObjectCmd ⊕ SysCmd

abbrev Vault := Objects × Disk

/-- Any TPM command may fail, and the disk is any. -/
def Vault.any (mac : Bytes → Bytes → Bytes) : Behaviour KeyCmd Vault :=
  (Faulty (Objects.exec mac) fun _ => True).sum Disk.any

/-! ## A disk that works -/

/-- A disk that never fails, with random bytes, a phrase and a clock that are fixed. -/
def Disk.exec : Handler SysCmd Disk
  | .exists, d => (d.sealedFile.isSome, d)
  | .fillBytes len, d => (Vector.replicate len 0, d)
  | .mnemonic, d => (.ok "abandon".toList, d)
  | .nowUnixMs, d => ((0 : UInt64), d)
  | .createDirAll, d | .setPermissions .., d | .chown .., d => (.ok (), d)
  | .createNew _, d =>
    match d.sealedFile with
    | none => (.ok (), ⟨some []⟩)
    | some _ => (.error ⟨.alreadyExists, []⟩, d)
  | .writeAll data, d => (.ok (), d.write data)
  | .read, d =>
    match d.sealedFile with
    | some data => (.ok data, d)
    | none => (.error ⟨.notFound, []⟩, d)
  | .removeFile, d =>
    match d.sealedFile with
    | some _ => (.ok (), ⟨none⟩)
    | none => (.error ⟨.notFound, []⟩, d)

/-- How a call reports a failure; the random numbers, the clock and an empty write have
none. -/
instance : Failing KeyCmd Fault where
  failAnswer fault
    | .inl _ => .error fault.error
    | .inr .exists => false
    | .inr (.fillBytes len) => Vector.replicate len 0
    | .inr .mnemonic => .error []
    | .inr .nowUnixMs => (0 : UInt64)
    | .inr .createDirAll | .inr (.setPermissions ..) | .inr (.chown ..) | .inr
      (.createNew _) | .inr .removeFile =>
      .error ⟨.other, []⟩
    | .inr (.writeAll data) => if data = [] then .ok () else .error ⟨.other, []⟩
    | .inr .read => .error ⟨.other, []⟩

/-- The TPM and such a disk. -/
def Vault.exec (mac : Bytes → Bytes → Bytes) : Handler KeyCmd Vault := (Objects.exec mac).sum Disk.exec

section Within

variable {mac : Bytes → Bytes → Bytes}

theorem Disk.exec_within : Within Disk.exec id Disk.any := by
  intro c d
  obtain ⟨file⟩ := d
  cases c with
  | «exists» => exact ⟨rfl, id⟩
  | createNew mode => cases file <;> simp [Disk.any, Disk.exec]
  | writeAll data => exact rfl
  | read =>
    cases file with
    | none => exact ⟨rfl, nofun⟩
    | some data => exact ⟨rfl, fun _ same => congrArg some (Except.ok.inj same)⟩
  | removeFile => cases file <;> simp [Disk.any, Disk.exec]
  | _ => exact rfl

/-- Failures are within what may happen. -/
theorem Vault.fail_within (c : KeyCmd) (v : Vault) (f : Fault) :
    Vault.any mac c v (failAnswer f c) v := by
  obtain ⟨o, d⟩ := v
  cases c with
  | inl c => exact ⟨.failed c o f trivial, rfl⟩
  | inr c =>
    refine ⟨?_, rfl⟩
    obtain ⟨file⟩ := d
    cases c with
    | «exists» => exact ⟨rfl, nofun⟩
    | writeAll data =>
      show Disk.any (.writeAll data) ⟨file⟩ (if data = [] then .ok () else .error ⟨.other, []⟩) ⟨file⟩
      by_cases empty : data = []
      · simp [empty, Disk.any, Disk.write]
      · rw [if_neg empty]
        exact ⟨[], List.nil_prefix, fun same => empty same.symm, by simp [Disk.write]⟩
    | read => exact ⟨rfl, nofun⟩
    | removeFile => exact ⟨rfl, nofun⟩
    | _ => exact rfl

theorem Vault.exec_within : Within (Vault.exec mac) id (Vault.any mac) := by
  have works : Within (Objects.exec mac) id (Faulty (Objects.exec mac) fun _ => True) :=
    fun c o => .done c o
  exact works.sum Disk.exec_within

theorem Vault.flaky_within : Within (Vault.exec mac).flaky Flaky.state (Vault.any mac) := by
  have sound : ∀ c v, Vault.any mac c v (Vault.exec mac c v).1 (Vault.exec mac c v).2 :=
    Vault.exec_within
  rintro c ⟨v, _ | ⟨_ | f, faults⟩⟩
  · exact sound c v
  · exact sound c v
  · exact Vault.fail_within c v f

end Within

end Pinpam
