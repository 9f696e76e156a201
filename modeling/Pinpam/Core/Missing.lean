import Pinpam.Core.Lockout

/-!
# Missing PINs

An owner read finds no PIN where the slot is not there and where it was never written. The
operations that take a PIN look the slot up before their session, and that lookup has an
error of its own.
-/

namespace Pinpam
set_option autoImplicit false
open Pinpam.Effect Pinpam.Effect.Fallible

/-- Both operations that take a PIN report it as missing, and leave the TPM as it is. -/
structure ReportsMissing (m : PinManager) (uid : UInt32) (pin : Pin) (t : Tpm) : Prop where
  verifyPin : exec Tpm.exec (m.verifyPin uid pin) t = (.error (.notProvisioned uid), t)
  deletePinWithAuth : exec Tpm.exec (m.deletePinWithAuth uid pin) t = (.error (.notProvisioned uid), t)

/-- The error of a verification on a slot without data. -/
def Account.missingError (uid : UInt32) (pin : Pin) (acc : Account) : PinError :=
  if acc.slot = .absent then .ofTss (.tss2 (some .handle))
  else if authMaxSize < (acc.reads pin).length then .ofTss (.wrapper .wrongParamSize)
  else .notProvisioned uid

section Missing

variable {m : PinManager} {uid limit : UInt32} {serves : Serves uid} {t : Tpm} {acc : Account}
  {pin : Pin}

theorem verifyPin_missing (known : acc.tag.Known) (unset : acc.slot.data = none) :
    acc.verifyPin uid pin limit = (.error (acc.missingError uid pin), acc) := by
  have wrong : ¬ ∃ c, acc.Accepts pin c := by
    rintro ⟨c, accepts⟩
    have opens := ((accepts_iff known).1 accepts).1
    rw [opens.written] at unset
    cases unset
  rw [verifyPin_wrong known wrong]
  unfold Account.verifyPinExact Account.missingError
  obtain ⟨slot, tag⟩ := acc
  cases slot with
  | absent => rfl
  | unwritten a =>
    rw [if_neg (by nofun : SlotState.unwritten a ≠ .absent)]
    by_cases long : authMaxSize < (Account.reads ⟨.unwritten a, tag⟩ pin).length
    · rw [if_pos ⟨nofun, long⟩, if_pos long]
    · rw [if_neg fun both => long both.2, if_neg long]
      rfl
  | written a c => cases unset

theorem deletePinWithAuth_missing (known : acc.tag.Known) (unset : acc.slot.data = none) :
    acc.deletePinWithAuth uid pin limit = (.error (acc.missingError uid pin), acc) := by
  unfold Account.deletePinWithAuth
  rw [verifyPin_missing known unset]

/-- Where there is no PIN, nothing is changed. -/
theorem missing_untouched (shows_ : t.Shows serves acc) (known : acc.tag.Known)
    (unset : acc.slot.data = none) :
    exec Tpm.exec (m.verifyPin uid pin) t = (.error (acc.missingError uid pin), t) ∧
      exec Tpm.exec (m.deletePinWithAuth uid pin) t = (.error (acc.missingError uid pin), t) := by
  constructor
  · rw [← shows_.eq_put, exec_verifyPin, verifyPin_missing known unset]
  · rw [← shows_.eq_put, exec_deletePinWithAuth, deletePinWithAuth_missing known unset]

/-- A missing PIN is reported as missing exactly where its slot is defined, and where the
library takes the bytes of the PIN. -/
theorem missing_reported_iff (shows_ : t.Shows serves acc) (known : acc.tag.Known)
    (missing : (exec Tpm.exec (getPinSlot uid) t).1 = .ok none) :
    ReportsMissing m uid pin t ↔ acc.slot ≠ .absent ∧ (acc.reads pin).length ≤ authMaxSize := by
  have unset : acc.slot.data = none := by
    rw [← shows_.eq_put, exec_getPinSlot] at missing
    exact Except.ok.inj missing
  obtain ⟨verified, deleted⟩ := @missing_untouched m uid serves t acc pin shows_ known unset
  have reported :
      acc.missingError uid pin = .notProvisioned uid ↔ acc.slot ≠ .absent ∧
      (acc.reads pin).length ≤ authMaxSize := by
    unfold Account.missingError
    by_cases absent : acc.slot = .absent
    · simp [absent, PinError.ofTss]
    by_cases long : authMaxSize < (acc.reads pin).length
    · simp [absent, long, Nat.not_le.2 long, PinError.ofTss]
    · simp [absent, long, Nat.not_lt.1 long]
  rw [← reported]
  constructor
  · intro reports
    have same := congrArg Prod.fst (verified.symm.trans reports.verifyPin)
    exact Except.error.inj same
  · intro error
    rw [error] at verified deleted
    exact ⟨verified, deleted⟩

end Missing

/-! ## Samples -/

/-- A slot that was defined and never written. -/
def halfDefined : Tpm := Tpm.empty.put serves_thousand ⟨.unwritten plainPin.auth, .absent⟩

theorem missing_reported_once : ReportsMissing defaultManager 1000 plainPin halfDefined := by
  have missing : (exec Tpm.exec (getPinSlot 1000) halfDefined).1 = .ok none :=
    congrArg Prod.fst exec_getPinSlot
  exact (missing_reported_iff Tpm.put_shows (.inl rfl) missing).2 ⟨nofun, by decide +kernel⟩

/-- A user who never had a PIN is answered with the text of a TPM error. -/
theorem missing_unreported : ¬ ∀ (m : PinManager) (uid : UInt32) (serves : Serves uid) (pin : Pin)
    (t : Tpm) (acc : Account),
    t.Shows serves acc → acc.tag.Known → (exec Tpm.exec (getPinSlot uid) t).1 = .ok none →
    ReportsMissing m uid pin t := by
  intro claim
  have empty : Tpm.empty.Shows serves_thousand ⟨.absent, .absent⟩ := ⟨rfl, rfl⟩
  have missing : (exec Tpm.exec (getPinSlot 1000) Tpm.empty).1 = .ok none := by
    rw [← empty.eq_put, exec_getPinSlot]
    rfl
  have reports :=
    claim defaultManager 1000 serves_thousand plainPin Tpm.empty _ empty (.inl rfl) missing
  exact ((missing_reported_iff empty (.inl rfl) missing).1 reports).1 rfl

end Pinpam
