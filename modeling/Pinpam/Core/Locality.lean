import Pinpam.Core.Requests

/-!
# What the operations name

A reading of the slot names the slot, work on the tag names the tag, and no operation
names an index of another user.
-/

namespace Pinpam
set_option autoImplicit false
open Pinpam.Effect Pinpam.Effect.Fallible

/-- A command that names no index but `i`. -/
def NvCmd.On (i : NvIndexTpmHandle) (c : NvCmd) : Prop := ∀ j, c.index = some j → j = i

/-- A command that names no index but the two of the user. -/
def NvCmd.Of (uid : UInt32) (c : NvCmd) : Prop :=
  ∀ j, c.index = some j → ∃ serves : Serves uid, j = slotHandle uid serves ∨ j = tagHandle uid serves

section Locality

variable {uid : UInt32} {serves : Serves uid} {m : PinManager} {pin : Pin} {i : NvIndexTpmHandle}
  {α : Type}

theorem NvCmd.on_self {c : NvCmd} (named : c.index = some i) : c.On i := by
  intro j same
  rw [named] at same
  exact (Option.some.inj same).symm

theorem NvCmd.on_none {c : NvCmd} (none_ : c.index = none) : c.On i := by
  intro j same
  rw [none_] at same
  cases same

/-- A session around commands of `O`. -/
theorem onlyX_session {O : NvCmd → Prop} {f : TssM α} (start : O (.startAuthSession .hmac))
    (flush : O .flushContext) (body : OnlyX O f) : OnlyX O (executeWithNullauthSession f) := by
  unfold executeWithNullauthSession
  refine onlyX_bind (onlyX_op start) fun _ => onlyX_bind (onlyX_attempt body) fun _ => ?_
  exact onlyX_bind (onlyX_op flush) fun _ => onlyX_ofResult

theorem session_on {f : TssM α} (body : OnlyX (NvCmd.On i) f) :
    OnlyX (NvCmd.On i) (executeWithNullauthSession f) :=
  onlyX_session (NvCmd.on_none rfl) (NvCmd.on_none rfl) body

theorem tpm_on {c : NvCmd} (named : c.index = some i) : OnlyX (NvCmd.On i) (tpm c) :=
  onlyX_op (NvCmd.on_self named)

theorem tpm_free {c : NvCmd} (none_ : c.index = none) : OnlyX (NvCmd.On i) (tpm c) :=
  onlyX_op (NvCmd.on_none none_)

theorem readFull_on : OnlyX (NvCmd.On i) (readFull i) := onlyX_bind (tpm_on rfl) fun _ => tpm_on rfl

/-! ## The slot -/

theorem readPinSlotOwner_on : OnlyX (NvCmd.On i) (readPinSlotOwner i) := by
  unfold readPinSlotOwner
  refine onlyX_bind (onlyX_attempt (session_on (onlyX_bind readFull_on fun data => ?_))) fun r => ?_
  · split
    · exact onlyX_pure
    · exact onlyX_throw
  · split
    · exact onlyX_pure
    · exact onlyX_pure
    · exact onlyX_pure
    · exact onlyX_throw

theorem restartContext_on : OnlyX (NvCmd.On i) m.restartContext := onlyX_mapErr (tpm_free rfl)

/-- The parts of `define_pin_slot` before and after the definition. -/
def definePinSlotArea (i : NvIndexTpmHandle) : PinM NvPublic := ofTss do
  let trial ← tpm (.startAuthSession .trial)
  let trial ← tpm (.policyCommandCode trial .nvWrite)
  let trial ← tpm (.policyNvWritten trial false)
  let digest ← tpm (.policyGetDigest trial)
  tpm .flushContext
  pure (slotPublic i digest)

def definePinSlotWrite (m : PinManager) (i : NvIndexTpmHandle) : PinM Unit := ofTss do
  let session ← tpm (.startAuthSession .policy)
  let session ← tpm (.policyCommandCode session .nvWrite)
  let session ← tpm (.policyNvWritten session false)
  let _ ← tpm (.nvReadPublic i)
  tpm (.nvWrite (.policy session) i (PinData.toBytes ⟨0, m.policy.maxAttempts.toInt32⟩) 0)

theorem definePinSlot_eq {bytes : Bytes} : m.definePinSlot i bytes = (do
      let auth ← ofTss (ofResult (Auth.tryFrom bytes))
      let pub ← definePinSlotArea i
      ofTss (executeWithNullauthSession (tpm (.nvDefineSpace auth pub)))
      definePinSlotWrite m i) :=
  rfl

/-- Whatever is answered, the area is that of the slot. -/
theorem definePinSlotArea_names :
    (definePinSlotArea i).run.Returns fun r => ∀ pub, r = .ok pub → pub.nvIndex = i := by
  rintro (_ | _)
  · exact nofun
  rintro (_ | _)
  · exact nofun
  rintro (_ | _)
  · exact nofun
  rintro (_ | _)
  · exact nofun
  rintro (_ | _)
  · exact nofun
  · rintro _ ⟨⟩
    rfl

theorem definePinSlot_on {bytes : Bytes} : OnlyX (NvCmd.On i) (m.definePinSlot i bytes) := by
  have area : OnlyX (NvCmd.On i) (definePinSlotArea i) := by
    refine onlyX_mapErr (onlyX_bind (tpm_free rfl) fun _ => onlyX_bind (tpm_free rfl) fun _ => ?_)
    refine onlyX_bind (tpm_free rfl) fun _ => onlyX_bind (tpm_free rfl) fun _ => ?_
    exact onlyX_bind (tpm_free rfl) fun _ => onlyX_pure
  have write : OnlyX (NvCmd.On i) (definePinSlotWrite m i) := by
    refine onlyX_mapErr (onlyX_bind (tpm_free rfl) fun _ => onlyX_bind (tpm_free rfl) fun _ => ?_)
    exact onlyX_bind (tpm_free rfl) fun _ => onlyX_bind (tpm_on rfl) fun _ => tpm_on rfl
  rw [definePinSlot_eq]
  refine onlyX_bind (onlyX_mapErr onlyX_ofResult) fun _ => ?_
  rw [OnlyX, run_bind_cases]
  refine Prog.only_seq area definePinSlotArea_names fun r names => ?_
  cases r with
  | error e => trivial
  | ok pub =>
    exact onlyX_bind (onlyX_mapErr (session_on (tpm_on (congrArg some (names pub rfl))))) fun _ => write

theorem verifyPinExact_on {bytes : Bytes} :
    OnlyX (NvCmd.On (slotHandle uid serves)) (verifyPinExact uid bytes) := by
  unfold verifyPinExact
  rw [nvIndexForUid_eq serves, ofResult_ok_bind]
  refine onlyX_bind (onlyX_mapErr (tpm_on rfl)) fun _ =>
    onlyX_bind (onlyX_attempt (session_on ?_)) fun data => ?_
  · exact onlyX_bind onlyX_ofResult fun _ => tpm_on rfl
  · dsimp only
    have invalid :
        ∀ f : Except PinError (Option PinData) → Bool, OnlyX (NvCmd.On (slotHandle uid serves))
          (do
            let slot ← attempt (readPinSlotOwner (slotHandle uid serves))
            pure (.invalid (f slot)) : PinM VerificationResult) :=
      fun _ => onlyX_bind (onlyX_attempt readPinSlotOwner_on) fun _ => onlyX_pure
    split
    · exact onlyX_pure
    · exact invalid _
    · exact invalid _
    · exact onlyX_throw
    · exact onlyX_throw
    · exact onlyX_throw

/-! ## The tag -/

theorem readPinVersionTag_on : OnlyX (NvCmd.On (tagHandle uid serves)) (readPinVersionTag uid) := by
  unfold readPinVersionTag
  rw [versionNvIndexForUid_eq serves, ofResult_ok_bind]
  refine onlyX_bind (onlyX_attempt (session_on readFull_on)) fun r => ?_
  split
  · split
    · exact onlyX_throw
    · exact onlyX_pure
  · exact onlyX_pure
  · exact onlyX_pure
  · exact onlyX_throw

theorem writePinVersionTagExisting_on {v : UInt8} :
    OnlyX (NvCmd.On i) (writePinVersionTagExisting i v) :=
  onlyX_mapErr (session_on (onlyX_bind (tpm_on rfl) fun _ => tpm_on rfl))

theorem definePinVersionTag_on : OnlyX (NvCmd.On i) (definePinVersionTag i) :=
  onlyX_mapErr (session_on (tpm_on rfl))

theorem writePinVersionTag_on {v : UInt8} :
    OnlyX (NvCmd.On (tagHandle uid serves)) (writePinVersionTag uid v) := by
  unfold writePinVersionTag
  rw [versionNvIndexForUid_eq serves, ofResult_ok_bind]
  refine onlyX_bind (onlyX_attempt writePinVersionTagExisting_on) fun r => ?_
  split
  · exact onlyX_pure
  · exact onlyX_bind definePinVersionTag_on fun _ => writePinVersionTagExisting_on
  · exact onlyX_throw

theorem deletePinVersionTag_on : OnlyX (NvCmd.On (tagHandle uid serves)) (deletePinVersionTag uid) := by
  unfold deletePinVersionTag
  rw [versionNvIndexForUid_eq serves, ofResult_ok_bind]
  refine onlyX_bind (onlyX_attempt (session_on (onlyX_bind (tpm_on rfl) fun _ => tpm_on rfl)))
    fun r => ?_
  split
  · exact onlyX_pure
  · exact onlyX_pure
  · exact onlyX_pure
  · exact onlyX_throw

/-! ## The requests -/

theorem of_slot {x : PinM α} (only : OnlyX (NvCmd.On (slotHandle uid serves)) x) :
    OnlyX (NvCmd.Of uid) x :=
  Prog.only_mono only fun _ on j named => ⟨serves, .inl (on j named)⟩

theorem of_tag {x : PinM α} (only : OnlyX (NvCmd.On (tagHandle uid serves)) x) :
    OnlyX (NvCmd.Of uid) x :=
  Prog.only_mono only fun _ on j named => ⟨serves, .inr (on j named)⟩

theorem restartContext_of : OnlyX (NvCmd.Of uid) m.restartContext := onlyX_mapErr (onlyX_op nofun)

theorem deletePinAdmin_of (serves : Serves uid) : OnlyX (NvCmd.Of uid) (deletePinAdmin uid) := by
  have undefine : OnlyX (NvCmd.On (slotHandle uid serves)) (attempt (executeWithNullauthSession do
      let _ ← tpm (.nvReadPublic (slotHandle uid serves))
      tpm (.nvUndefineSpace (slotHandle uid serves))) : PinM (Except TssError Unit)) :=
    onlyX_attempt (session_on (onlyX_bind (tpm_on rfl) fun _ => tpm_on rfl))
  unfold deletePinAdmin
  rw [nvIndexForUid_eq serves, ofResult_ok_bind]
  refine onlyX_bind (of_slot undefine) fun r => ?_
  split
  · exact onlyX_bind (onlyX_attempt (of_tag (@deletePinVersionTag_on uid serves))) fun _ => onlyX_pure
  · exact onlyX_throw
  · exact onlyX_throw
  · exact onlyX_throw

theorem setupPin_of (serves : Serves uid) : OnlyX (NvCmd.Of uid) (m.setupPin uid pin) := by
  unfold PinManager.setupPin
  rw [nvIndexForUid_eq serves, ofResult_ok_bind]
  refine onlyX_bind (of_slot (@readPinSlotOwner_on (slotHandle uid serves))) fun existing => ?_
  split
  · exact onlyX_throw
  refine onlyX_bind (of_slot (@definePinSlot_on m (slotHandle uid serves) _)) fun _ =>
    onlyX_bind restartContext_of fun _ => ?_
  refine onlyX_bind (onlyX_attempt (of_tag (@writePinVersionTag_on uid serves _))) fun r => ?_
  cases r with
  | ok _ => exact onlyX_pure
  | error err =>
    refine onlyX_bind restartContext_of fun _ =>
      onlyX_bind (onlyX_attempt (deletePinAdmin_of serves)) fun r => ?_
    cases r <;> exact onlyX_throw

theorem migrateLegacyPinFormat_of (serves : Serves uid) :
    OnlyX (NvCmd.Of uid) (m.migrateLegacyPinFormat uid pin) := by
  unfold PinManager.migrateLegacyPinFormat
  split
  · exact of_tag (@writePinVersionTag_on uid serves _)
  · refine onlyX_bind (deletePinAdmin_of serves) fun _ => onlyX_bind restartContext_of fun _ => ?_
    exact onlyX_bind (setupPin_of serves) fun _ => restartContext_of

theorem verifyPin_of (serves : Serves uid) : OnlyX (NvCmd.Of uid) (m.verifyPin uid pin) := by
  unfold PinManager.verifyPin
  refine onlyX_bind (of_tag (@readPinVersionTag_on uid serves)) fun version => ?_
  cases version with
  | some version =>
    dsimp only
    split
    · exact onlyX_throw
    · exact of_slot (@verifyPinExact_on uid serves _)
  | none =>
    refine onlyX_bind (of_slot (@verifyPinExact_on uid serves _)) fun r => ?_
    cases r with
    | success slot =>
      refine onlyX_bind restartContext_of fun _ =>
        onlyX_bind (onlyX_attempt (migrateLegacyPinFormat_of serves)) fun _ => ?_
      exact onlyX_bind restartContext_of fun _ => onlyX_pure
    | invalid locked => exact onlyX_pure
    | lockedOut => exact onlyX_pure

theorem deletePinWithAuth_of (serves : Serves uid) :
    OnlyX (NvCmd.Of uid) (m.deletePinWithAuth uid pin) := by
  unfold PinManager.deletePinWithAuth
  refine onlyX_bind (verifyPin_of serves) fun r => ?_
  cases r with
  | success slot => exact onlyX_bind (deletePinAdmin_of serves) fun _ => onlyX_pure
  | invalid locked => exact onlyX_pure
  | lockedOut => exact onlyX_pure

theorem isLockedOut_of (serves : Serves uid) : OnlyX (NvCmd.Of uid) (isLockedOut uid) := by
  unfold isLockedOut
  rw [nvIndexForUid_eq serves, ofResult_ok_bind]
  refine onlyX_bind (of_slot (@readPinSlotOwner_on (slotHandle uid serves))) fun slot => ?_
  cases slot <;> exact onlyX_pure

theorem getPinSlot_of (serves : Serves uid) : OnlyX (NvCmd.Of uid) (getPinSlot uid) := by
  unfold getPinSlot
  rw [nvIndexForUid_eq serves, ofResult_ok_bind]
  exact of_slot (@readPinSlotOwner_on (slotHandle uid serves))

/-- A request names no index but the two of its user. -/
theorem request_of {request : Request} : (request.program m uid).Only (NvCmd.Of uid) := by
  by_cases serves : Serves uid
  · cases request with
    | setupPin pin => exact Prog.only_bind (setupPin_of serves) fun _ => trivial
    | verifyPin pin => exact Prog.only_bind (verifyPin_of serves) fun _ => trivial
    | deletePinWithAuth pin => exact Prog.only_bind (deletePinWithAuth_of serves) fun _ => trivial
    | deletePinAdmin => exact Prog.only_bind (deletePinAdmin_of serves) fun _ => trivial
    | isLockedOut => exact Prog.only_bind (isLockedOut_of serves) fun _ => trivial
    | getPinSlot => exact Prog.only_bind (getPinSlot_of serves) fun _ => trivial
  · rw [request_overflow serves]
    trivial

end Locality

end Pinpam
