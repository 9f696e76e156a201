import Pinpam.Core.Config
import Pinpam.Core.Operations

/-!
# The life of a PIN

A PIN that the policy accepts is set up, verified and deleted. The TPM and its library
have limits of their own, on the bytes of a PIN and on the attempts, that the policy
does not know.
-/

namespace Pinpam
set_option autoImplicit false
open Pinpam.Effect Pinpam.Effect.Fallible

/-- The PIN was entered under a policy that was read. -/
structure Chosen (system : System) (m : PinManager) (input : Str) (pin : Pin) : Prop where
  accepted : ∃ config, PinPolicy.parseConfig system config = .ok m.policy
  made : Pin.new input m.policy = .ok pin

/-- The PIN is set up, verified with the limit of the policy, and deleted. -/
def PinWorks {uid : UInt32} (m : PinManager) (serves : Serves uid) (pin : Pin) (t : Tpm) : Prop :=
  ∃ t₁ t₂ t₃ slot, exec Tpm.exec (m.setupPin uid pin) t = (.ok (), t₁) ∧
    exec Tpm.exec (m.verifyPin uid pin) t₁ = (.ok (.success slot), t₂) ∧
    (slot.pinCount = 0 ∧ slot.pinLimit.toInt = m.policy.maxAttempts.toNat) ∧
    exec Tpm.exec (deletePinAdmin uid) t₂ = (.ok (), t₃) ∧ t₃.Shows serves ⟨.absent, .absent⟩

/-- What the TPM and its library take. -/
structure Storable (m : PinManager) (text : Str) (slot : SlotState) : Prop where
  short : (asBytes text).length ≤ authMaxSize
  small : (stripZeros (asBytes text)).length ≤ authValueMax
  free : slot = .absent
  positive : 0 < m.policy.maxAttempts.toNat
  low : m.policy.maxAttempts.toNat < 2 ^ 31

section Lifecycle

variable {system : System} {m : PinManager} {input : Str} {pin : Pin} {uid : UInt32}
  {serves : Serves uid} {t : Tpm} {acc : Account}

/-- The PIN works exactly if the library takes its bytes, the TPM its value and the
manager its limit. -/
theorem accepted_pin_works_iff (chosen : Chosen system m input pin) (shows_ : t.Shows serves acc)
    (unset : acc.slot.data = none) :
    PinWorks m serves pin t ↔ Storable m (trim input) acc.slot := by
  have text : pin.str = trim input := (Pin.new_eq_ok.1 chosen.made).2
  have value : (Auth.ofBytes (asBytes pin.str)).bytes = stripZeros (asBytes pin.str) := rfl
  rw [← text, ← shows_.eq_put]
  constructor
  · rintro ⟨t₁, t₂, t₃, slot, setup, verified, -, -, -⟩
    rw [exec_setupPin] at setup
    obtain ⟨ok, rfl⟩ := Prod.mk.inj setup
    have taken := (setupPin_ok_iff unset).1 ok
    obtain ⟨short, free, small⟩ := refusal_eq_none.1 taken
    rw [setupPin_stored unset taken, exec_verifyPin] at verified
    obtain ⟨c, accepts, -⟩ := verifyPin_success_iff.1 (congrArg Prod.fst verified)
    have opens : (SlotState.written pin.auth ⟨0, m.policy.maxAttempts⟩).Opens pin.auth
        ⟨0, m.policy.maxAttempts⟩ := by
      cases accepts with
      | current tag opens short =>
        cases opens.written
        exact opens
      | legacy tag opens short => cases tag
    obtain ⟨positive, low⟩ := fresh_opens_iff.1 opens
    exact ⟨short, small, free, positive, low⟩
  · rintro ⟨short, small, free, positive, low⟩
    have taken : Account.refusal (asBytes pin.str) acc.slot = none :=
      refusal_eq_none.2 ⟨short, free, small⟩
    have opens := (fresh_opens_iff (a := pin.auth)).2 ⟨positive, low⟩
    have stored := @setupPin_stored uid m.policy.maxAttempts acc pin unset taken
    have setup : exec Tpm.exec (m.setupPin uid pin) (t.put serves acc) =
        (.ok (), t.put serves ⟨.written pin.auth ⟨0, m.policy.maxAttempts⟩,
          .version PIN_VERSION_CURRENT⟩) := by
      rw [exec_setupPin, stored]
    have compared := @SlotState.Opens.exact uid ⟨_, .version PIN_VERSION_CURRENT⟩ _ _ opens short
    have verified : exec Tpm.exec (m.verifyPin uid pin)
        (t.put serves ⟨.written pin.auth ⟨0, m.policy.maxAttempts⟩, .version PIN_VERSION_CURRENT⟩) =
          (.ok (.success (PinCounters.data ⟨0, m.policy.maxAttempts⟩)),
            t.put serves ⟨.written pin.auth ⟨0, m.policy.maxAttempts⟩,
              .version PIN_VERSION_CURRENT⟩) := by
      rw [exec_verifyPin, verifyPin_current rfl, compared]
      rfl
    have deleted : exec Tpm.exec (deletePinAdmin uid)
        (t.put serves ⟨.written pin.auth ⟨0, m.policy.maxAttempts⟩, .version PIN_VERSION_CURRENT⟩) =
          (.ok (), t.put serves ⟨.absent, .absent⟩) := by
      rw [exec_deletePinAdmin]
      rfl
    exact ⟨_, _, _, _, setup, verified, ⟨rfl, toInt_toInt32 low⟩, deleted, Tpm.put_shows⟩

end Lifecycle

/-! ## Samples -/

/-- A machine with no files and a loader that takes every TCTI. -/
def bareSystem : System := ⟨fun _ => false, fun _ => .ok ()⟩

/-- The manager under the default policy with this limit. -/
def limitedManager (limit : UInt32) : PinManager :=
  ⟨{ PinPolicy.default with maxAttempts := limit }, PinPolicy.default.tctiSpec⟩

theorem plainPin_chosen : Chosen bareSystem defaultManager " 4242\n".toList plainPin where
  accepted := ⟨[], rfl⟩
  made := by rfl

theorem accepted_pin_works_once : PinWorks defaultManager serves_thousand plainPin Tpm.empty := by
  have empty : Tpm.empty.Shows serves_thousand ⟨.absent, .absent⟩ := ⟨rfl, rfl⟩
  refine (accepted_pin_works_iff plainPin_chosen empty rfl).2 ?_
  constructor <;> decide +kernel

/-- The policy may have the limit zero, under which the TPM locks the slot at once. -/
theorem accepted_pin_unusable : ¬ ∀ (system : System) (m : PinManager) (input : Str) (pin : Pin)
    (uid : UInt32) (serves : Serves uid) (t : Tpm) (tag : TagState),
    Chosen system m input pin → t.Shows serves ⟨.absent, tag⟩ →
      PinWorks m serves pin t := by
  intro claim
  have chosen : Chosen bareSystem (limitedManager 0) "4242".toList plainPin :=
    ⟨⟨"pin_lockout_max_attempts=0".toList, by decide +kernel⟩, by rfl⟩
  have empty : Tpm.empty.Shows serves_thousand ⟨.absent, .absent⟩ := ⟨rfl, rfl⟩
  have works := claim bareSystem (limitedManager 0) _ plainPin 1000 serves_thousand Tpm.empty
      .absent chosen empty
  have positive := ((accepted_pin_works_iff chosen empty rfl).1 works).positive
  exact absurd positive (by decide)

end Pinpam
