import Pinpam.Core.Pin

/-!
# Slots and version tags

The two NV indices of a user: the PIN slot, a PIN-Fail index read as `PinData`, and
the version tag, one ordinary byte. `nvIndexForUid` and `versionNvIndexForUid` place
them; the uids below the bound make the two regions disjoint.
-/

namespace Pinpam
set_option autoImplicit false

/-! ## Slot data -/

def PinData.SIZE : Nat := 8

/-- `PinData::from_bytes`. -/
def PinData.fromBytes : Bytes → Option PinData
  | a3 :: a2 :: a1 :: a0 :: b3 :: b2 :: b1 :: b0 :: _ =>
    some ⟨(ofBe32 a3 a2 a1 a0).toInt32, (ofBe32 b3 b2 b1 b0).toInt32⟩
  | _ => none

/-- `impl From<PinData> for Vec<u8>`. -/
def PinData.toBytes (d : PinData) : Bytes := be32 d.pinCount.toUInt32 ++ be32 d.pinLimit.toUInt32

/-- The two words of the TPM, read with a sign. -/
def PinCounters.data (p : PinCounters) : PinData := ⟨p.pinCount.toInt32, p.pinLimit.toInt32⟩

@[simp] theorem PinData.fromBytes_toBytes (p : PinCounters) : fromBytes p.toBytes = some p.data := by
  simp only [PinCounters.toBytes, be32, List.cons_append, List.nil_append, fromBytes, ofBe32_be32]
  rfl

theorem PinData.toBytes_initial (limit : UInt32) :
    PinData.toBytes ⟨0, limit.toInt32⟩ = PinCounters.toBytes ⟨0, limit⟩ := rfl

@[simp] theorem PinCounters.toBytes_length (p : PinCounters) : p.toBytes.length = 8 := rfl

/-- The test the manager makes on the signed words. -/
def PinData.atLimit (d : PinData) : Bool := decide (d.pinCount ≥ d.pinLimit)

/-- A word below `2 ^ 31` reads the same with and without a sign. -/
theorem toInt_toInt32 {w : UInt32} (small : w.toNat < 2 ^ 31) : w.toInt32.toInt = w.toNat := by
  show w.toBitVec.toInt = _
  rw [BitVec.toInt_eq_toNat_of_lt]
  · rfl
  · show 2 * w.toNat < _
    omega

structure AttemptInfo where
  used : UInt32
  limit : UInt32
  deriving DecidableEq, Repr

def AttemptInfo.fromPinData (slot : PinData) : AttemptInfo where
  used := if slot.pinCount < 0 then 0 else slot.pinCount.toUInt32
  limit := if slot.pinLimit ≤ 0 then 0 else slot.pinLimit.toUInt32

def AttemptInfo.locked (info : AttemptInfo) : Bool := decide (info.limit > 0 ∧ info.used ≥ info.limit)

def AttemptInfo.promptTuple (info : AttemptInfo) : UInt32 × UInt32 := (info.used, info.limit)

/-! ## Index placement -/

def PIN_NV_INDEX_BASE : UInt32 := 0x01000000
def PIN_VERSION_UID_MAX : UInt32 := 0x007FFFFF
def PIN_VERSION_NV_INDEX_OFFSET : UInt32 := PIN_VERSION_UID_MAX + 1
def PIN_VERSION_CURRENT : UInt8 := 2
def PIN_VERSION_TAG_SIZE : Nat := 1

/-- `u32::checked_add`. -/
def checkedAdd (a b : UInt32) : Option UInt32 :=
  if a.toNat + b.toNat < 2 ^ 32 then some (a + b) else none

/-- `nv_index_for_uid`. -/
def nvIndexForUid (uid : UInt32) : PinResult NvIndexTpmHandle :=
  if uid > PIN_VERSION_UID_MAX then .error (.uidOverflow uid)
  else
    match checkedAdd PIN_NV_INDEX_BASE uid with
    | none => .error (.uidOverflow uid)
    | some value => (NvIndexTpmHandle.new value).mapError PinError.ofTss

/-- `version_nv_index_for_uid`. -/
def versionNvIndexForUid (uid : UInt32) : PinResult NvIndexTpmHandle :=
  if uid > PIN_VERSION_UID_MAX then .error (.uidOverflow uid)
  else
    match (checkedAdd PIN_NV_INDEX_BASE PIN_VERSION_NV_INDEX_OFFSET).bind (checkedAdd · uid) with
    | none => .error (.uidOverflow uid)
    | some value => (NvIndexTpmHandle.new value).mapError PinError.ofTss

/-- The uids that have indices. -/
def Serves (uid : UInt32) : Prop := uid ≤ PIN_VERSION_UID_MAX

instance (uid : UInt32) : Decidable (Serves uid) :=
  inferInstanceAs (Decidable (uid ≤ PIN_VERSION_UID_MAX))

theorem serves_thousand : Serves 1000 := by decide

/-- Where a slot lies. -/
def slotHandle (uid : UInt32) (serves : Serves uid) : NvIndexTpmHandle where
  val := PIN_NV_INDEX_BASE + uid
  low := by
    have bound := UInt32.le_iff_toNat_le.1 serves
    rw [UInt32.le_iff_toNat_le, UInt32.toNat_add]
    simp only [PIN_VERSION_UID_MAX, PIN_NV_INDEX_BASE, UInt32.reduceToNat] at *
    omega
  high := by
    have bound := UInt32.le_iff_toNat_le.1 serves
    rw [UInt32.le_iff_toNat_le, UInt32.toNat_add]
    simp only [PIN_VERSION_UID_MAX, PIN_NV_INDEX_BASE, UInt32.reduceToNat] at *
    omega

/-- Where a version tag lies. -/
def tagHandle (uid : UInt32) (serves : Serves uid) : NvIndexTpmHandle where
  val := PIN_NV_INDEX_BASE + PIN_VERSION_NV_INDEX_OFFSET + uid
  low := by
    have bound := UInt32.le_iff_toNat_le.1 serves
    rw [UInt32.le_iff_toNat_le, UInt32.toNat_add]
    simp only [PIN_VERSION_NV_INDEX_OFFSET, PIN_VERSION_UID_MAX, PIN_NV_INDEX_BASE, UInt32.reduceAdd,
      UInt32.reduceToNat] at *
    omega
  high := by
    have bound := UInt32.le_iff_toNat_le.1 serves
    rw [UInt32.le_iff_toNat_le, UInt32.toNat_add]
    simp only [PIN_VERSION_NV_INDEX_OFFSET, PIN_VERSION_UID_MAX, PIN_NV_INDEX_BASE, UInt32.reduceAdd,
      UInt32.reduceToNat] at *
    omega

section Handles

variable {uid : UInt32}

theorem checkedAdd_eq {a b : UInt32} (fits : a.toNat + b.toNat < 2 ^ 32) :
    checkedAdd a b = some (a + b) :=
  if_pos fits

theorem NvIndexTpmHandle.new_val (i : NvIndexTpmHandle) : NvIndexTpmHandle.new i.val = .ok i :=
  dif_pos ⟨i.low, i.high⟩

theorem nvIndexForUid_eq (serves : Serves uid) : nvIndexForUid uid = .ok (slotHandle uid serves) := by
  have bound := UInt32.le_iff_toNat_le.1 serves
  have sum : checkedAdd PIN_NV_INDEX_BASE uid = some (slotHandle uid serves).val := by
    apply checkedAdd_eq
    simp only [PIN_VERSION_UID_MAX, PIN_NV_INDEX_BASE, UInt32.reduceToNat] at *
    omega
  rw [nvIndexForUid, if_neg (UInt32.not_lt.2 serves), sum]
  simp only [NvIndexTpmHandle.new_val, Except.mapError]

theorem versionNvIndexForUid_eq (serves : Serves uid) :
    versionNvIndexForUid uid = .ok (tagHandle uid serves) := by
  have bound := UInt32.le_iff_toNat_le.1 serves
  have sum : checkedAdd (PIN_NV_INDEX_BASE + PIN_VERSION_NV_INDEX_OFFSET) uid =
      some (tagHandle uid serves).val := by
    apply checkedAdd_eq
    simp only [PIN_VERSION_NV_INDEX_OFFSET, PIN_VERSION_UID_MAX, PIN_NV_INDEX_BASE, UInt32.reduceAdd,
      UInt32.reduceToNat] at *
    omega
  have base : checkedAdd PIN_NV_INDEX_BASE PIN_VERSION_NV_INDEX_OFFSET =
      some (PIN_NV_INDEX_BASE + PIN_VERSION_NV_INDEX_OFFSET) := by decide
  rw [versionNvIndexForUid, if_neg (UInt32.not_lt.2 serves), base, Option.bind_some, sum]
  simp only [NvIndexTpmHandle.new_val, Except.mapError]

theorem nvIndexForUid_overflow (past : ¬ Serves uid) : nvIndexForUid uid = .error (.uidOverflow uid) :=
  if_pos (UInt32.not_le.1 past)

theorem versionNvIndexForUid_overflow (past : ¬ Serves uid) :
    versionNvIndexForUid uid = .error (.uidOverflow uid) :=
  if_pos (UInt32.not_le.1 past)

/-- The two index maps are injective and their images disjoint. -/
theorem slotHandle_inj {uid' : UInt32} {serves : Serves uid} {serves' : Serves uid'} :
    slotHandle uid serves = slotHandle uid' serves' ↔ uid = uid' := by
  refine ⟨fun same => ?_, fun same => by subst same; rfl⟩
  exact (UInt32.add_right_inj _).1 (congrArg NvIndexTpmHandle.val same)

theorem tagHandle_inj {uid' : UInt32} {serves : Serves uid} {serves' : Serves uid'} :
    tagHandle uid serves = tagHandle uid' serves' ↔ uid = uid' := by
  refine ⟨fun same => ?_, fun same => by subst same; rfl⟩
  exact (UInt32.add_right_inj _).1 (congrArg NvIndexTpmHandle.val same)

theorem slotHandle_ne_tagHandle {uid' : UInt32} {serves : Serves uid} {serves' : Serves uid'} :
    slotHandle uid serves ≠ tagHandle uid' serves' := by
  intro same
  have bound := UInt32.le_iff_toNat_le.1 serves
  have bound' := UInt32.le_iff_toNat_le.1 serves'
  have value := congrArg (fun i => i.val.toNat) same
  simp only [slotHandle, tagHandle, UInt32.toNat_add, PIN_VERSION_NV_INDEX_OFFSET, PIN_VERSION_UID_MAX,
    PIN_NV_INDEX_BASE, UInt32.reduceAdd, UInt32.reduceToNat] at *
  omega

end Handles

end Pinpam
