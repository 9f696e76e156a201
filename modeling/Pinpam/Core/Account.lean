import Pinpam.Core.Manager

/-!
# Accounts

The two indices of a user as one value: a slot that is absent, defined but never
written, or written, and a version tag likewise. `Tpm.put` is the TPM with a user's
indices in a given state; the manager only moves a TPM between such states.
-/

namespace Pinpam
set_option autoImplicit false
open Pinpam.Effect

inductive SlotState where
  | absent
  | unwritten (authValue : Auth)
  | written (authValue : Auth) (pin : PinCounters)
  deriving DecidableEq

inductive TagState where
  | absent
  | unwritten
  | version (v : UInt8)
  deriving DecidableEq

structure Account where
  slot : SlotState
  tag : TagState
  deriving DecidableEq

/-- The policy of a slot: one `NV_Write`, while unwritten. -/
def slotPolicy : Digest := [.commandCode .nvWrite, .nvWritten false]

def slotIndex (authValue : Auth) (pin : Option PinCounters) : NvIndex :=
  ⟨slotAttributes, slotPolicy, authValue, .pinFail pin⟩

def tagIndex (data : Option Bytes) : NvIndex :=
  ⟨tagAttributes, [], Auth.empty, .ordinary PIN_VERSION_TAG_SIZE data⟩

def SlotState.index : SlotState → Option NvIndex
  | .absent => none
  | .unwritten a => some (slotIndex a none)
  | .written a pin => some (slotIndex a (some pin))

def TagState.index : TagState → Option NvIndex
  | .absent => none
  | .unwritten => some (tagIndex none)
  | .version v => some (tagIndex (some [v]))

theorem SlotState.index_injective : Function.Injective SlotState.index := by
  intro s s' same
  cases s <;> cases s' <;> simp_all [index, slotIndex]

theorem TagState.index_injective : Function.Injective TagState.index := by
  intro s s' same
  cases s <;> cases s' <;> simp_all [index, tagIndex]

section Put

variable {uid : UInt32} {t : Tpm} {serves : Serves uid} {acc acc' : Account}

/-- The indices of a user in state `acc`. -/
def Tpm.put (t : Tpm) (serves : Serves uid) (acc : Account) : Tpm :=
  (t.set (slotHandle uid serves) acc.slot.index).set (tagHandle uid serves) acc.tag.index

/-- `t` has the indices of the user in state `acc`. -/
def Tpm.Shows (t : Tpm) (serves : Serves uid) (acc : Account) : Prop :=
  t.nv (slotHandle uid serves) = acc.slot.index ∧ t.nv (tagHandle uid serves) = acc.tag.index

@[simp] theorem put_slot : (t.put serves acc).nv (slotHandle uid serves) = acc.slot.index := by
  simp [Tpm.put, slotHandle_ne_tagHandle]

@[simp] theorem put_tag : (t.put serves acc).nv (tagHandle uid serves) = acc.tag.index := by
  simp [Tpm.put]

theorem put_of_ne {i : NvIndexTpmHandle} (slot : i ≠ slotHandle uid serves)
    (tag : i ≠ tagHandle uid serves) :
    (t.put serves acc).nv i = t.nv i := by
  simp [Tpm.put, slot, tag]

theorem Tpm.put_shows : (t.put serves acc).Shows serves acc := ⟨put_slot, put_tag⟩

/-- A TPM with the slot that a setup of the PIN 4242 under a limit of 3 leaves. -/
def plainTpm : Tpm :=
  Tpm.empty.put serves_thousand ⟨.written plainPin.auth ⟨0, 3⟩, .version PIN_VERSION_CURRENT⟩

theorem Tpm.Shows.eq_put (shows_ : t.Shows serves acc) : t.put serves acc = t := by
  rw [Tpm.put, Tpm.set_self shows_.1, Tpm.set_self shows_.2]

theorem Tpm.Shows.unique (h : t.Shows serves acc) (h' : t.Shows serves acc') : acc = acc' := by
  obtain ⟨slot, tag⟩ := acc
  obtain ⟨slot', tag'⟩ := acc'
  cases SlotState.index_injective (h.1.symm.trans h'.1)
  cases TagState.index_injective (h.2.symm.trans h'.2)
  rfl

/-- Writing the slot's index moves the account. -/
theorem put_set_slot {s : SlotState} {x : Option NvIndex} (same : x = s.index) :
    (t.put serves acc).set (slotHandle uid serves) x = t.put serves { acc with slot := s } := by
  subst same
  rw [Tpm.put, Tpm.set_comm slotHandle_ne_tagHandle.symm, Tpm.set_set]
  rfl

theorem put_set_tag {s : TagState} {x : Option NvIndex} (same : x = s.index) :
    (t.put serves acc).set (tagHandle uid serves) x = t.put serves { acc with tag := s } := by
  subst same
  rw [Tpm.put, Tpm.set_set]
  rfl

end Put

end Pinpam
