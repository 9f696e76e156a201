import Mathlib.Algebra.Group.Nat.Defs
import Mathlib.Data.List.DropRight
import Pinpam.Effect.Prog

/-!
# The NV storage of a TPM 2.0

NV indices with their attributes, authorization and area, and the commands the PIN
manager sends. A PIN-Fail area holds two unsigned words: its `authValue` is
refused once `pinCount >= pinLimit`, a mismatch adds one to `pinCount`, a match
resets it. An `authValue` is kept and compared without its trailing zero bytes.
A session is carried by the caller, so a policy session is the list of the
assertions made in it and its digest stands for that list.
-/

namespace Pinpam
set_option autoImplicit false
open Pinpam.Effect

/-- The response codes the callers tell apart; `other` is any further one. -/
inductive ResponseKind where
  | handle | nvUninitialized | authFail | badAuth | authUnavailable | nvAuthorization
  | nvDefined | nvRange | size | policyFail | value | other (code : Nat)
  deriving DecidableEq, Repr

/-- Errors raised by the wrapper before a command is sent. -/
inductive WrapperErrorKind where
  | wrongParamSize | paramsMissing | invalidParam | wrongValueFromTpm
  deriving DecidableEq, Repr

/-- `tss_esapi::Error`. -/
inductive TssError where
  | tss2 (kind : Option ResponseKind)
  | wrapper (kind : WrapperErrorKind)
  deriving DecidableEq, Repr

/-- A handle of the NV range. -/
structure NvIndexTpmHandle where
  val : UInt32
  low : 0x01000000 ≤ val
  high : val ≤ 0x01FFFFFF
  deriving DecidableEq

/-- `NvIndexTpmHandle::new`. -/
def NvIndexTpmHandle.new (value : UInt32) : Except TssError NvIndexTpmHandle :=
  if h : 0x01000000 ≤ value ∧ value ≤ 0x01FFFFFF then .ok ⟨value, h.1, h.2⟩
  else .error (.wrapper .invalidParam)

abbrev Bytes := List UInt8

/-- Trailing zero bytes removed. -/
def stripZeros (b : Bytes) : Bytes := b.rdropWhile (· == 0)

@[simp] theorem stripZeros_stripZeros (b : Bytes) : stripZeros (stripZeros b) = stripZeros b :=
  List.rdropWhile_idempotent _ b

/-- Only a trailing zero byte is lost. -/
theorem stripZeros_of_not_mem {b : Bytes} (free : 0 ∉ b) : stripZeros b = b := by
  apply List.rdropWhile_eq_self_iff.2
  intro nonempty zero
  exact free (beq_iff_eq.1 zero ▸ b.getLast_mem nonempty)

/-- An authorization value, in the form the TPM keeps and compares. -/
@[ext] structure Auth where
  bytes : Bytes
  stripped : stripZeros bytes = bytes
  deriving DecidableEq

inductive CommandCode where
  | nvWrite | nvRead | other (code : Nat)
  deriving DecidableEq, Repr

/-- What a policy session may assert. -/
inductive PolicyAssertion where
  | commandCode (cc : CommandCode)
  | nvWritten (written : Bool)
  | other (assertion : Nat)
  deriving DecidableEq, Repr

/-- A policy digest: the extension of a digest is free of collisions. -/
abbrev Digest := List PolicyAssertion

/-- A trial or policy session with the assertions made in it. -/
structure PolicySession where
  assertions : List PolicyAssertion
  deriving DecidableEq, Repr

def PolicySession.fresh : PolicySession := ⟨[]⟩

def PolicySession.digest (s : PolicySession) : Digest := s.assertions

/-- The attributes of an index, as far as a command looks at them. -/
structure NvAttributes where
  authRead : Bool
  authWrite : Bool
  ownerRead : Bool
  ownerWrite : Bool
  policyRead : Bool
  policyWrite : Bool
  noDa : Bool
  deriving DecidableEq, Repr

/-- The two words of a PIN area. -/
structure PinCounters where
  pinCount : UInt32
  pinLimit : UInt32
  deriving DecidableEq, Repr

/-- The data area of an index, `none` until it is first written. -/
inductive NvArea where
  | ordinary (size : Nat) (data : Option Bytes)
  | pinFail (pin : Option PinCounters)
  deriving DecidableEq, Repr

structure NvIndex where
  attributes : NvAttributes
  authPolicy : Digest
  authValue : Auth
  area : NvArea
  deriving DecidableEq

inductive NvIndexType where
  | ordinary | pinFail
  deriving DecidableEq, Repr

/-- The public area given to `NV_DefineSpace`; the name algorithm is SHA-256. -/
structure NvPublic where
  nvIndex : NvIndexTpmHandle
  nvIndexType : NvIndexType
  attributes : NvAttributes
  authPolicy : Digest
  dataAreaSize : Nat
  deriving DecidableEq

/-- The NV indices of the TPM. -/
structure Tpm where
  nv : NvIndexTpmHandle → Option NvIndex

namespace Tpm

def empty : Tpm := ⟨fun _ => none⟩

def set (t : Tpm) (i : NvIndexTpmHandle) (x : Option NvIndex) : Tpm :=
  ⟨fun j => if j = i then x else t.nv j⟩

variable {t : Tpm} {i j : NvIndexTpmHandle} {x y : Option NvIndex}

@[simp] theorem nv_empty : empty.nv i = none := rfl

@[simp] theorem nv_set : (t.set i x).nv j = if j = i then x else t.nv j := rfl

theorem nv_set_self : (t.set i x).nv i = x := if_pos rfl

theorem nv_set_of_ne (ne : j ≠ i) : (t.set i x).nv j = t.nv j := if_neg ne

theorem set_nv : t.set i (t.nv i) = t := by
  simp only [set]
  congr 1
  funext j
  split <;> simp_all

theorem set_self (h : t.nv i = x) : t.set i x = t := h ▸ set_nv

@[simp] theorem set_set : (t.set i x).set i y = t.set i y := by
  simp only [set]
  congr 1
  funext j
  split <;> rfl

theorem set_comm (ne : i ≠ j) : (t.set i x).set j y = (t.set j y).set i x := by
  simp only [set]
  congr 1
  funext k
  split
  · next e => rw [if_neg fun e' => ne (e'.symm.trans e)]
  · rfl

end Tpm

/-! ## Area contents -/

/-- A word as four bytes, most significant first. -/
def be32 (w : UInt32) : Bytes :=
  [.ofNat (w.toNat / 2 ^ 24), .ofNat (w.toNat / 2 ^ 16), .ofNat (w.toNat / 2 ^ 8), .ofNat w.toNat]

def ofBe32 (b3 b2 b1 b0 : UInt8) : UInt32 :=
  .ofNat (b3.toNat * 2 ^ 24 + b2.toNat * 2 ^ 16 + b1.toNat * 2 ^ 8 + b0.toNat)

theorem ofBe32_be32 (w : UInt32) :
    ofBe32 (.ofNat (w.toNat / 2 ^ 24)) (.ofNat (w.toNat / 2 ^ 16)) (.ofNat (w.toNat / 2 ^ 8))
      (.ofNat w.toNat) = w := by
  have bound := w.toNat_lt
  apply UInt32.toNat_inj.mp
  simp only [ofBe32, UInt32.toNat_ofNat', UInt8.toNat_ofNat']
  omega

def PinCounters.toBytes (p : PinCounters) : Bytes := be32 p.pinCount ++ be32 p.pinLimit

def PinCounters.ofBytes : Bytes → Option PinCounters
  | [a3, a2, a1, a0, b3, b2, b1, b0] => some ⟨ofBe32 a3 a2 a1 a0, ofBe32 b3 b2 b1 b0⟩
  | _ => none

@[simp] theorem PinCounters.ofBytes_toBytes (p : PinCounters) : ofBytes p.toBytes = some p := by
  simp only [toBytes, be32, List.cons_append, List.nil_append, ofBytes, ofBe32_be32]

/-- The size of the area, as `NV_ReadPublic` reports it. -/
def NvArea.dataSize : NvArea → Nat
  | .ordinary size _ => size
  | .pinFail _ => 8

/-- What an `NV_Read` of the whole area sees. -/
def NvArea.contents : NvArea → Option Bytes
  | .ordinary _ data => data
  | .pinFail pin => pin.map PinCounters.toBytes

def NvArea.written (a : NvArea) : Bool := a.contents.isSome

/-- `data` placed at `offset`; bytes never written read as `0xFF`. -/
def splice (size : Nat) (old : Option Bytes) (offset : Nat) (data : Bytes) : Bytes :=
  let base := old.getD (List.replicate size 0xFF)
  base.take offset ++ data ++ base.drop (offset + data.length)

/-- The effect of `NV_Write`: in range, and for a PIN area both words at once. -/
def NvArea.write (offset : Nat) (data : Bytes) : NvArea → Except ResponseKind NvArea
  | .ordinary size old =>
    if offset + data.length ≤ size then .ok (.ordinary size (some (splice size old offset data)))
    else .error .nvRange
  | .pinFail _ =>
    if offset = 0 then
      match PinCounters.ofBytes data with
      | some pin => .ok (.pinFail (some pin))
      | none => .error .nvRange
    else .error .nvRange

end Pinpam
