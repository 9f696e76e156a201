import Pinpam.Core.AccountOps

/-!
# The commands on an account

What the TPM answers to the commands of the manager when the indices of the user are
in account form, and the account it is left with.
-/

namespace Pinpam
set_option autoImplicit false
open Pinpam.Effect

section Commands

variable {uid : UInt32} {t : Tpm} {serves : Serves uid} {acc : Account} {a b : Auth}
  {p : PinCounters} {v : UInt8}

/-! ## The slot -/

theorem slotIndex_read : (slotIndex b (some p)).read PinData.SIZE 0 = .ok p.toBytes := by
  have whole : p.toBytes.take PinData.SIZE = p.toBytes := List.take_of_length_le p.toBytes_length.le
  unfold NvIndex.read
  rw [show (slotIndex b (some p)).area.contents = some p.toBytes from rfl]
  exact congrArg Except.ok whole

theorem slotIndex_present : (slotIndex b (some p)).present a =
    if p.locked then (some .authUnavailable, slotIndex b (some p))
    else (if a = b then none else some .badAuth, slotIndex b (some (p.after (a = b)))) := by
  by_cases locked : p.pinLimit ≤ p.pinCount
  · simp [NvIndex.present, NvIndex.unavailable, slotIndex, PinCounters.locked, locked]
  · by_cases hit : a = b <;>
      simp [NvIndex.present, NvIndex.unavailable, NvIndex.counted, NvIndex.mismatch,
        slotIndex, slotAttributes,
        PinCounters.locked, PinCounters.after, locked, hit]

theorem exec_nvReadPublic_slot : Tpm.exec (.nvReadPublic (slotHandle uid serves)) (t.put serves acc) =
    (if acc.slot = .absent then refuse .handle else .ok PinData.SIZE, t.put serves acc) := by
  obtain ⟨slot, tag⟩ := acc
  cases slot <;> simp [Tpm.exec, SlotState.index, slotIndex, NvArea.dataSize, PinData.SIZE]

theorem exec_nvRead_slot_owner :
    Tpm.exec (.nvRead .owner (slotHandle uid serves) PinData.SIZE 0) (t.put serves acc) =
      (match acc.slot with
        | .absent => refuse .handle
        | .unwritten _ => refuse .nvUninitialized
        | .written _ p => .ok p.toBytes, t.put serves acc) := by
  obtain ⟨slot, tag⟩ := acc
  cases slot with
  | absent => simp [Tpm.exec, Tpm.nvRead, SlotState.index]
  | unwritten b =>
    simp [Tpm.exec, Tpm.nvRead, SlotState.index, NvIndex.read, slotIndex,
      slotAttributes, NvArea.contents]
  | written b p =>
    simp only [Tpm.exec, Tpm.nvRead, put_slot, SlotState.index, slotIndex_read]
    simp [slotIndex, slotAttributes]

theorem exec_nvRead_slot_index :
    Tpm.exec (.nvRead (.index a) (slotHandle uid serves) PinData.SIZE 0) (t.put serves acc) =
      (match acc.slot with
        | .absent => refuse .handle
        | .unwritten _ => refuse .nvUninitialized
        | .written b p =>
          if p.locked then refuse .authUnavailable
          else if a = b then .ok (p.after true).toBytes else refuse .badAuth,
        t.put serves { acc with slot := acc.slot.compared a }) := by
  obtain ⟨slot, tag⟩ := acc
  have same : ∀ s : SlotState, (t.put serves ⟨s, tag⟩).set (slotHandle uid serves) s.index =
      t.put serves ⟨s, tag⟩ :=
    fun s => put_set_slot rfl
  cases slot with
  | absent => simp [Tpm.exec, Tpm.nvRead, SlotState.index, SlotState.compared]
  | unwritten b =>
    have stays := same (.unwritten b)
    simp_all [Tpm.exec, Tpm.nvRead, SlotState.index, NvIndex.present, NvIndex.unavailable, slotIndex,
      slotAttributes, SlotState.compared]
  | written b p =>
    have move : ∀ p', (t.put serves ⟨.written b p, tag⟩).set (slotHandle uid serves)
        (some (slotIndex b (some p'))) =
        t.put serves ⟨.written b p', tag⟩ := fun p' => put_set_slot rfl
    have authRead : ∀ p, (slotIndex b p).attributes.authRead = true := fun _ => rfl
    simp only [Tpm.exec, Tpm.nvRead, put_slot, SlotState.index, slotIndex_present,
      authRead, if_true] at move ⊢
    by_cases locked : p.locked
    · simp [locked, SlotState.compared, move]
    · by_cases hit : a = b <;> simp [locked, hit, SlotState.compared, move, slotIndex_read]

theorem exec_nvUndefineSpace_slot (present : acc.slot ≠ .absent) :
    Tpm.exec (.nvUndefineSpace (slotHandle uid serves)) (t.put serves acc) =
      (.ok (), t.put serves { acc with slot := .absent }) := by
  obtain ⟨slot, tag⟩ := acc
  have move : (t.put serves ⟨slot, tag⟩).set (slotHandle uid serves) none =
      t.put serves ⟨.absent, tag⟩ :=
    put_set_slot rfl
  cases slot <;> simp_all [Tpm.exec, SlotState.index]

theorem exec_nvDefineSpace_slot (absent : acc.slot = .absent) (fits : a.bytes.length ≤ authValueMax) :
    Tpm.exec (.nvDefineSpace a (slotPublic (slotHandle uid serves) slotPolicy)) (t.put serves acc) =
      (.ok (), t.put serves { acc with slot := .unwritten a }) := by
  obtain ⟨slot, tag⟩ := acc
  have move : (t.put serves ⟨slot, tag⟩).set (slotHandle uid serves) (some (slotIndex a none)) =
      t.put serves ⟨.unwritten a, tag⟩ := put_set_slot rfl
  have small : ¬ authValueMax < a.bytes.length := Nat.not_lt.2 fits
  simp_all [Tpm.exec, Tpm.nvDefineSpace, slotPublic, SlotState.index, slotIndex, Tpm.NvPublic.index,
    PinData.SIZE, -Nat.not_lt, -not_lt]

theorem exec_nvDefineSpace_slot_present (present : acc.slot ≠ .absent) :
    Tpm.exec (.nvDefineSpace a (slotPublic (slotHandle uid serves) slotPolicy)) (t.put serves acc) =
      (refuse .nvDefined, t.put serves acc) := by
  obtain ⟨slot, tag⟩ := acc
  cases slot <;> simp_all [Tpm.exec, Tpm.nvDefineSpace, slotPublic, SlotState.index]

theorem exec_nvDefineSpace_slot_size (absent : acc.slot = .absent)
    (large : authValueMax < a.bytes.length) :
    Tpm.exec (.nvDefineSpace a (slotPublic (slotHandle uid serves) slotPolicy)) (t.put serves acc) =
      (refuse .size, t.put serves acc) := by
  obtain ⟨slot, tag⟩ := acc
  simp_all [Tpm.exec, Tpm.nvDefineSpace, slotPublic, SlotState.index]

theorem exec_nvWrite_slot (limit : UInt32) (unwritten : acc.slot = .unwritten a) :
    Tpm.exec (.nvWrite (.policy ⟨slotPolicy⟩) (slotHandle uid serves)
      (PinData.toBytes ⟨0, limit.toInt32⟩) 0)
        (t.put serves acc) =
      (.ok (), t.put serves { acc with slot := .written a ⟨0, limit⟩ }) := by
  obtain ⟨slot, tag⟩ := acc
  have move : (t.put serves ⟨slot, tag⟩).set (slotHandle uid serves)
      (some (slotIndex a (some ⟨0, limit⟩))) =
      t.put serves ⟨.written a ⟨0, limit⟩, tag⟩ := put_set_slot rfl
  subst unwritten
  simp only [PinData.toBytes_initial]
  simp_all [Tpm.exec, Tpm.nvWrite, SlotState.index, slotIndex, slotAttributes,
    NvIndex.policyAuthorizes, slotPolicy,
    PolicySession.digest, PolicyAssertion.permits, NvArea.written, NvArea.contents,
      Tpm.store, NvArea.write]

/-! ## The version tag -/

theorem exec_nvReadPublic_tag : Tpm.exec (.nvReadPublic (tagHandle uid serves)) (t.put serves acc) =
    (if acc.tag = .absent then refuse .handle else .ok PIN_VERSION_TAG_SIZE, t.put serves acc) := by
  obtain ⟨slot, tag⟩ := acc
  cases tag <;> simp [Tpm.exec, TagState.index, tagIndex, NvArea.dataSize]

theorem exec_nvRead_tag :
    Tpm.exec (.nvRead .owner (tagHandle uid serves) PIN_VERSION_TAG_SIZE 0) (t.put serves acc) =
      (match acc.tag with
        | .absent => refuse .handle
        | .unwritten => refuse .nvUninitialized
        | .version v => .ok [v], t.put serves acc) := by
  obtain ⟨slot, tag⟩ := acc
  cases tag <;>
    simp [Tpm.exec, Tpm.nvRead, TagState.index, NvIndex.read, tagIndex, tagAttributes, NvArea.contents,
      NvArea.dataSize, PIN_VERSION_TAG_SIZE]

theorem exec_nvWrite_tag (present : acc.tag ≠ .absent) :
    Tpm.exec (.nvWrite .owner (tagHandle uid serves) [v] 0) (t.put serves acc) =
      (.ok (), t.put serves { acc with tag := .version v }) := by
  obtain ⟨slot, tag⟩ := acc
  have move : (t.put serves ⟨slot, tag⟩).set (tagHandle uid serves) (some (tagIndex (some [v]))) =
      t.put serves ⟨slot, .version v⟩ := put_set_tag rfl
  cases tag with
  | absent => exact absurd rfl present
  | unwritten =>
    simp_all [Tpm.exec, Tpm.nvWrite, TagState.index, tagIndex, tagAttributes, Tpm.store,
      NvArea.write, splice,
      PIN_VERSION_TAG_SIZE]
  | version w =>
    simp_all [Tpm.exec, Tpm.nvWrite, TagState.index, tagIndex, tagAttributes, Tpm.store,
      NvArea.write, splice,
      PIN_VERSION_TAG_SIZE]

theorem exec_nvDefineSpace_tag (absent : acc.tag = .absent) :
    Tpm.exec (.nvDefineSpace Auth.empty (tagPublic (tagHandle uid serves))) (t.put serves acc) =
      (.ok (), t.put serves { acc with tag := .unwritten }) := by
  obtain ⟨slot, tag⟩ := acc
  have move : (t.put serves ⟨slot, tag⟩).set (tagHandle uid serves) (some (tagIndex none)) =
      t.put serves ⟨slot, .unwritten⟩ := put_set_tag rfl
  simp_all [Tpm.exec, Tpm.nvDefineSpace, tagPublic, TagState.index, tagIndex,
    Tpm.NvPublic.index, Auth.empty]

theorem exec_nvDefineSpace_tag_present (present : acc.tag ≠ .absent) :
    Tpm.exec (.nvDefineSpace Auth.empty (tagPublic (tagHandle uid serves))) (t.put serves acc) =
      (refuse .nvDefined, t.put serves acc) := by
  obtain ⟨slot, tag⟩ := acc
  cases tag <;> simp_all [Tpm.exec, Tpm.nvDefineSpace, tagPublic, TagState.index]

theorem exec_nvUndefineSpace_tag (present : acc.tag ≠ .absent) :
    Tpm.exec (.nvUndefineSpace (tagHandle uid serves)) (t.put serves acc) =
      (.ok (), t.put serves { acc with tag := .absent }) := by
  obtain ⟨slot, tag⟩ := acc
  have move : (t.put serves ⟨slot, tag⟩).set (tagHandle uid serves) none =
      t.put serves ⟨slot, .absent⟩ :=
    put_set_tag rfl
  cases tag <;> simp_all [Tpm.exec, TagState.index]

/-! ## Refusals -/

theorem exec_nvUndefineSpace_slot_absent (absent : acc.slot = .absent) :
    Tpm.exec (.nvUndefineSpace (slotHandle uid serves)) (t.put serves acc) =
    (refuse .handle, t.put serves acc) := by
  simp [Tpm.exec, absent, SlotState.index]

theorem exec_nvUndefineSpace_tag_absent (absent : acc.tag = .absent) :
    Tpm.exec (.nvUndefineSpace (tagHandle uid serves)) (t.put serves acc) =
    (refuse .handle, t.put serves acc) := by
  simp [Tpm.exec, absent, TagState.index]

theorem exec_nvWrite_tag_absent (absent : acc.tag = .absent) :
    Tpm.exec (.nvWrite .owner (tagHandle uid serves) [v] 0) (t.put serves acc) =
    (refuse .handle, t.put serves acc) := by
  simp [Tpm.exec, Tpm.nvWrite, absent, TagState.index]

/-- A slot is written once. -/
theorem exec_nvWrite_slot_refused {data : Bytes} (other : ∀ a, acc.slot ≠ .unwritten a) : ∃ kind,
    Tpm.exec (.nvWrite (.policy ⟨slotPolicy⟩) (slotHandle uid serves) data 0) (t.put serves acc) =
      (refuse kind, t.put serves acc) := by
  obtain ⟨slot, tag⟩ := acc
  cases slot with
  | absent => exact ⟨.handle, by simp [Tpm.exec, Tpm.nvWrite, SlotState.index]⟩
  | unwritten a => exact absurd rfl (other a)
  | written a p =>
    refine ⟨.policyFail, ?_⟩
    simp [Tpm.exec, Tpm.nvWrite, SlotState.index, slotIndex, slotAttributes,
      NvIndex.policyAuthorizes, slotPolicy,
      PolicySession.digest, PolicyAssertion.permits, NvArea.written, NvArea.contents]

/-- A command on a TPM whose account is known. -/
theorem Tpm.Shows.move {c : NvCmd} {r r' : Answer c} {t' : Tpm} {acc' : Account}
    (shows_ : t.Shows serves acc) (answer : Tpm.exec c (t.put serves acc) = (r, t.put serves acc'))
    (run : Tpm.exec c t = (r', t')) :
    r' = r ∧ t'.Shows serves acc' := by
  rw [shows_.eq_put, run] at answer
  obtain ⟨rfl, rfl⟩ := Prod.mk.inj answer
  exact ⟨rfl, Tpm.put_shows⟩

end Commands

end Pinpam
