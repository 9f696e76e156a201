import Pinpam.Effect.Fault
import Pinpam.Tpm.Nv

/-!
# The commands of the TPM

`Tpm.exec` is a TPM 2.0 answering the commands of the PIN manager; a `Fault` is what
a command that failed instead of taking effect answers.
-/

namespace Pinpam
set_option autoImplicit false
open Pinpam.Effect

inductive SessionType where
  | hmac | policy | trial
  deriving DecidableEq, Repr

/-- The authorization of an NV access: the (empty) owner auth, the `authValue` of
the index itself, or a policy session. -/
inductive NvAuth where
  | owner
  | index (authValue : Auth)
  | policy (session : PolicySession)
  deriving DecidableEq

/-- What is sent to the TPM; `connect` is a new context on the TCTI. -/
inductive NvCmd where
  | connect (tcti : List Char)
  | startAuthSession (ty : SessionType)
  | flushContext
  | policyCommandCode (session : PolicySession) (cc : CommandCode)
  | policyNvWritten (session : PolicySession) (written : Bool)
  | policyGetDigest (session : PolicySession)
  | nvReadPublic (i : NvIndexTpmHandle)
  | nvDefineSpace (auth : Auth) (pub : NvPublic)
  | nvUndefineSpace (i : NvIndexTpmHandle)
  | nvRead (auth : NvAuth) (i : NvIndexTpmHandle) (size offset : Nat)
  | nvWrite (auth : NvAuth) (i : NvIndexTpmHandle) (data : Bytes) (offset : Nat)

/-- The result type of a command; `NV_ReadPublic` gives the size of the area. -/
@[reducible] def NvCmd.Out : NvCmd → Type
  | .connect _ | .flushContext | .nvDefineSpace .. | .nvUndefineSpace _ | .nvWrite .. => Unit
  | .startAuthSession _ | .policyCommandCode .. | .policyNvWritten .. => PolicySession
  | .policyGetDigest _ => Digest
  | .nvReadPublic _ => Nat
  | .nvRead .. => Bytes

instance : Interface NvCmd where
  Answer c := Except TssError c.Out

/-- The TPM's answer with a response code. -/
def refuse {α : Type} (kind : ResponseKind) : Except TssError α := .error (.tss2 (some kind))

/-- The bytes an `authValue` may have under the SHA-256 name algorithm. -/
def authValueMax : Nat := 32

/-- A policy session may be used for `cc` on an index in the given written state. -/
def PolicyAssertion.permits (cc : CommandCode) (written : Bool) : PolicyAssertion → Bool
  | .commandCode c => c == cc
  | .nvWritten b => b == written
  | .other _ => true

namespace NvIndex

/-- The code for a wrong `authValue`. -/
def mismatch (x : NvIndex) : ResponseKind := if x.attributes.noDa then .badAuth else .authFail

/-- The TPM's PIN rule: the `authValue` is refused, unwritten or locked. -/
def unavailable (x : NvIndex) : Option ResponseKind :=
  match x.area with
  | .pinFail none => some .nvUninitialized
  | .pinFail (some p) => if p.pinLimit ≤ p.pinCount then some .authUnavailable else none
  | .ordinary .. => none

/-- The PIN count after `a` was compared. -/
def counted (x : NvIndex) (a : Auth) : NvIndex :=
  match x.area with
  | .pinFail (some p) =>
    { x with area := .pinFail (some { p with pinCount := if a = x.authValue then 0 else p.pinCount + 1 }) }
  | _ => x

/-- `a` presented as the `authValue` of the index. -/
def present (x : NvIndex) (a : Auth) : Option ResponseKind × NvIndex :=
  match x.unavailable with
  | some kind => (some kind, x)
  | none => (if a = x.authValue then none else some x.mismatch, x.counted a)

/-- A policy session authorizes `cc` when its digest is the policy of the index and
what it asserts holds now. -/
def policyAuthorizes (x : NvIndex) (s : PolicySession) (cc : CommandCode) : Bool :=
  decide (s.digest = x.authPolicy) && s.assertions.all (·.permits cc x.area.written)

/-- The bytes `[offset, offset + size)` of the area. -/
def read (x : NvIndex) (size offset : Nat) : Except TssError Bytes :=
  match x.area.contents with
  | none => refuse .nvUninitialized
  | some b => if offset + size ≤ x.area.dataSize then .ok ((b.drop offset).take size)
    else refuse .nvRange

end NvIndex

namespace Tpm

def nvRead (t : Tpm) (auth : NvAuth) (i : NvIndexTpmHandle) (size offset : Nat) :
    Except TssError Bytes × Tpm :=
  match t.nv i with
  | none => (refuse .handle, t)
  | some x =>
    match auth with
    | .owner => (if x.attributes.ownerRead then x.read size offset else refuse .nvAuthorization, t)
    | .policy s =>
      if x.attributes.policyRead then
        (if x.policyAuthorizes s .nvRead then x.read size offset else refuse .policyFail, t)
      else (refuse .authUnavailable, t)
    | .index a =>
      if x.attributes.authRead then
        match x.present a with
        | (some kind, x') => (refuse kind, t.set i (some x'))
        | (none, x') => (x'.read size offset, t.set i (some x'))
      else (refuse .authUnavailable, t)

/-- An authorized `NV_Write`. -/
def store (t : Tpm) (i : NvIndexTpmHandle) (x : NvIndex) (data : Bytes) (offset : Nat) :
    Except TssError Unit × Tpm :=
  match x.area.write offset data with
  | .ok area => (.ok (), t.set i (some { x with area }))
  | .error kind => (refuse kind, t.set i (some x))

def nvWrite (t : Tpm) (auth : NvAuth) (i : NvIndexTpmHandle) (data : Bytes) (offset : Nat) :
    Except TssError Unit × Tpm :=
  match t.nv i with
  | none => (refuse .handle, t)
  | some x =>
    match auth with
    | .owner => if x.attributes.ownerWrite then t.store i x data offset
      else (refuse .nvAuthorization, t)
    | .policy s =>
      if x.attributes.policyWrite then
        if x.policyAuthorizes s .nvWrite then t.store i x data offset else (refuse .policyFail, t)
      else (refuse .authUnavailable, t)
    | .index a =>
      if x.attributes.authWrite then
        match x.present a with
        | (some kind, x') => (refuse kind, t.set i (some x'))
        | (none, x') => t.store i x' data offset
      else (refuse .authUnavailable, t)

/-- The new index of `NV_DefineSpace`; a PIN-Fail area is two words. -/
def NvPublic.index (pub : NvPublic) (auth : Auth) : NvIndex :=
  ⟨pub.attributes, pub.authPolicy, auth,
    match pub.nvIndexType with
    | .ordinary => .ordinary pub.dataAreaSize none
    | .pinFail => .pinFail none⟩

def nvDefineSpace (t : Tpm) (auth : Auth) (pub : NvPublic) : Except TssError Unit × Tpm :=
  if (t.nv pub.nvIndex).isSome then (refuse .nvDefined, t)
  else if authValueMax < auth.bytes.length ∨ (pub.nvIndexType = .pinFail ∧ pub.dataAreaSize ≠ 8) then
    (refuse .size, t)
  else (.ok (), t.set pub.nvIndex (some (NvPublic.index pub auth)))

/-- A second assertion of the same kind must agree with the first. -/
def assertInto (s : PolicySession) (a : PolicyAssertion) (agree : PolicyAssertion → Bool) :
    Except TssError PolicySession :=
  if s.assertions.all agree then .ok ⟨s.assertions ++ [a]⟩ else refuse .value

/-- A TPM answering a command. -/
def exec : Handler NvCmd Tpm
  | .connect _, t => (.ok (), t)
  | .startAuthSession _, t => (.ok .fresh, t)
  | .flushContext, t => (.ok (), t)
  | .policyCommandCode s cc, t =>
    (assertInto s (.commandCode cc) fun | .commandCode c => c == cc | _ => true, t)
  | .policyNvWritten s b, t => (assertInto s (.nvWritten b) fun | .nvWritten c => c == b | _ => true, t)
  | .policyGetDigest s, t => (.ok s.digest, t)
  | .nvReadPublic i, t =>
    (match t.nv i with
      | some x => .ok x.area.dataSize
      | none => refuse .handle, t)
  | .nvDefineSpace auth pub, t => t.nvDefineSpace auth pub
  | .nvUndefineSpace i, t =>
    match t.nv i with
    | some _ => (.ok (), t.set i none)
    | none => (refuse .handle, t)
  | .nvRead auth i size offset, t => t.nvRead auth i size offset
  | .nvWrite auth i data offset, t => t.nvWrite auth i data offset

end Tpm

/-! ## Frames -/

/-- The index a command names. -/
def NvCmd.index : NvCmd → Option NvIndexTpmHandle
  | .nvReadPublic i | .nvUndefineSpace i | .nvRead _ i _ _ | .nvWrite _ i _ _ => some i
  | .nvDefineSpace _ pub => some pub.nvIndex
  | _ => none

/-- A command that has no effect, whatever it answers. -/
def NvCmd.Quiet : NvCmd → Prop
  | .nvUndefineSpace _ | .nvDefineSpace .. | .nvWrite .. | .nvRead (.index _) .. => False
  | _ => True

section Frames

variable {t : Tpm} {c : NvCmd} {i : NvIndexTpmHandle}

theorem exec_quiet (quiet : c.Quiet) : (Tpm.exec c t).2 = t := by
  cases c with
  | nvRead auth i size offset =>
    cases auth with
    | index a => exact quiet.elim
    | owner =>
      simp only [Tpm.exec, Tpm.nvRead]
      split <;> rfl
    | policy s =>
      simp only [Tpm.exec, Tpm.nvRead]
      split <;> [rfl; (split <;> rfl)]
  | nvUndefineSpace i => exact quiet.elim
  | nvDefineSpace auth pub => exact quiet.elim
  | nvWrite auth i data offset => exact quiet.elim
  | _ => rfl

theorem store_frame {x : NvIndex} {j : NvIndexTpmHandle} {data : Bytes} {offset : Nat} (ne : i ≠ j) :
    (t.store j x data offset).2.nv i = t.nv i := by
  unfold Tpm.store
  split <;> exact Tpm.nv_set_of_ne ne

/-- A command acts on the index it names. -/
theorem exec_frame (other : c.index ≠ some i) : (Tpm.exec c t).2.nv i = t.nv i := by
  have ne : ∀ j, c.index = some j → i ≠ j := fun j named same => other (same ▸ named)
  cases c with
  | nvUndefineSpace j =>
    simp only [Tpm.exec]
    split
    · exact Tpm.nv_set_of_ne (ne j rfl)
    · rfl
  | nvDefineSpace auth pub =>
    simp only [Tpm.exec, Tpm.nvDefineSpace]
    split
    · rfl
    split
    · rfl
    · exact Tpm.nv_set_of_ne (ne _ rfl)
  | nvRead auth j size offset =>
    cases auth with
    | owner => exact congrArg (Tpm.nv · i) (exec_quiet trivial)
    | policy s => exact congrArg (Tpm.nv · i) (exec_quiet trivial)
    | index a =>
      simp only [Tpm.exec, Tpm.nvRead]
      split
      · rfl
      split
      · split <;> exact Tpm.nv_set_of_ne (ne j rfl)
      · rfl
  | nvWrite auth j data offset =>
    simp only [Tpm.exec, Tpm.nvWrite]
    split
    · rfl
    split
    · split
      · exact store_frame (ne j rfl)
      · rfl
    · split
      · split
        · exact store_frame (ne j rfl)
        · rfl
      · rfl
    · split
      · split
        · exact Tpm.nv_set_of_ne (ne j rfl)
        · exact (store_frame (ne j rfl))
      · rfl
  | _ => rfl

variable {u : Tpm} {j : NvIndexTpmHandle} {x : Option NvIndex}

theorem set_agree (same : t.nv i = u.nv i) : (t.set j x).nv i = (u.set j x).nv i := by
  simp only [Tpm.nv_set, same]

theorem store_local {x : NvIndex} {data : Bytes} {offset : Nat} :
    (t.store j x data offset).1 = (u.store j x data offset).1 ∧
    ∀ i, t.nv i = u.nv i → (t.store j x data offset).2.nv i = (u.store j x data offset).2.nv i := by
  unfold Tpm.store
  split <;> exact ⟨rfl, fun _ same => set_agree same⟩

/-- What a command answers and does depends on the index it names, and on no other. -/
theorem exec_local (named : ∀ i, c.index = some i → t.nv i = u.nv i) :
    (Tpm.exec c t).1 = (Tpm.exec c u).1 ∧
    ∀ i, t.nv i = u.nv i → (Tpm.exec c t).2.nv i = (Tpm.exec c u).2.nv i := by
  cases c with
  | nvReadPublic j =>
    have here := named j rfl
    simp only [Tpm.exec, here, true_and]
    exact fun _ same => same
  | nvUndefineSpace j =>
    have here := named j rfl
    simp only [Tpm.exec, here]
    cases u.nv j with
    | none => exact ⟨rfl, fun _ same => same⟩
    | some x => exact ⟨rfl, fun _ same => set_agree same⟩
  | nvDefineSpace auth pub =>
    have here := named pub.nvIndex rfl
    simp only [Tpm.exec, Tpm.nvDefineSpace, here]
    split
    · exact ⟨rfl, fun _ same => same⟩
    split
    · exact ⟨rfl, fun _ same => same⟩
    · exact ⟨rfl, fun _ same => set_agree same⟩
  | nvRead auth j size offset =>
    have here := named j rfl
    simp only [Tpm.exec, Tpm.nvRead, here]
    cases u.nv j with
    | none => exact ⟨rfl, fun _ same => same⟩
    | some x =>
      cases auth with
      | owner => exact ⟨rfl, fun _ same => same⟩
      | policy s =>
        dsimp only
        split <;> exact ⟨rfl, fun _ same => same⟩
      | index a =>
        dsimp only
        split
        · split <;> exact ⟨rfl, fun _ same => set_agree same⟩
        · exact ⟨rfl, fun _ same => same⟩
  | nvWrite auth j data offset =>
    have here := named j rfl
    simp only [Tpm.exec, Tpm.nvWrite, here]
    cases u.nv j with
    | none => exact ⟨rfl, fun _ same => same⟩
    | some x =>
      cases auth with
      | owner =>
        dsimp only
        split
        · exact store_local
        · exact ⟨rfl, fun _ same => same⟩
      | policy s =>
        dsimp only
        split
        · split
          · exact store_local
          · exact ⟨rfl, fun _ same => same⟩
        · exact ⟨rfl, fun _ same => same⟩
      | index a =>
        dsimp only
        split
        · split
          · exact ⟨rfl, fun _ same => set_agree same⟩
          · exact store_local
        · exact ⟨rfl, fun _ same => same⟩
  | _ => exact ⟨rfl, fun _ same => same⟩

/-- A command that names another index. -/
theorem exec_set_other (other : c.index ≠ some j) :
    Tpm.exec c (t.set j x) = ((Tpm.exec c t).1, (Tpm.exec c t).2.set j x) := by
  have named : ∀ i, c.index = some i → (t.set j x).nv i = t.nv i :=
    fun i at_ => Tpm.nv_set_of_ne fun same => other (same ▸ at_)
  obtain ⟨answer, effect⟩ := exec_local named
  refine Prod.ext answer (congrArg Tpm.mk (funext fun i => ?_))
  by_cases same : i = j
  · subst same
    rw [exec_frame other, Tpm.nv_set_self, if_pos rfl]
  · rw [if_neg same]
    exact effect i (Tpm.nv_set_of_ne same)

end Frames

/-- A command that failed: an error of the device or of the connection, which says
nothing about an index. -/
structure Fault where
  code : Nat
  deriving DecidableEq, Repr

def Fault.error (f : Fault) : TssError := .tss2 (some (.other f.code))

instance : Failing NvCmd Fault where
  failAnswer f _ := .error f.error

end Pinpam
