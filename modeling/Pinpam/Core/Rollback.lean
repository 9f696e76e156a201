import Mathlib.Tactic.IntervalCases
import Pinpam.Core.Operations

/-!
# A setup that fails

One command of `setupPin` fails. Before the slot is defined nothing has happened and
after the version tag is under way the rollback removes the slot; from the
definition to the reconnect before the tag nothing removes it.
-/

namespace Pinpam
set_option autoImplicit false
open Pinpam.Effect Pinpam.Effect.Fallible

section Rollback

variable {uid : UInt32} {serves : Serves uid} {t : Tpm} {m : PinManager} {f : Fault} {n : Nat}
  {bytes : Bytes}

/-- A run with a single fault, at the command numbered `n`. -/
def onceExec {ε α : Type} (n : Nat) (f : Fault) (x : Fallible NvCmd ε α) (t : Tpm) :
    Except ε α × Flaky Fault Tpm :=
  exec Tpm.exec.flaky x (Flaky.once n f t)

/-! ## Up to the reconnect -/

theorem readPinSlotOwner_early (early : n < 3) (absent : t.nv (slotHandle uid serves) = none) :
    onceExec n f (readPinSlotOwner (slotHandle uid serves)) t = (.error (.ofTss f.error), ⟨t, []⟩) := by
  interval_cases n <;>
    simp [onceExec, readPinSlotOwner, executeWithNullauthSession, readFull, tpm, failAnswer,
      Fault.error, Tpm.exec, absent, refuse]

theorem readPinSlotOwner_late (absent : t.nv (slotHandle uid serves) = none) :
    onceExec (n + 3) f (readPinSlotOwner (slotHandle uid serves)) t = (.ok none, Flaky.once n f t) := by
  simp [onceExec, readPinSlotOwner, executeWithNullauthSession, readFull, tpm, Tpm.exec, absent, refuse]

theorem definePinSlot_trial (early : n < 7) (short : bytes.length ≤ authMaxSize) :
    onceExec n f (m.definePinSlot (slotHandle uid serves) bytes) t =
    (.error (.ofTss f.error), ⟨t, []⟩) := by
  interval_cases n <;>
    simp [onceExec, PinManager.definePinSlot, executeWithNullauthSession, ofTss, tpm, failAnswer,
      Auth.tryFrom, short,
      Except.mapError, Except.map, Tpm.exec, Tpm.assertInto, PolicySession.fresh]

theorem definePinSlot_half (start : 7 ≤ n) (early : n < 13) (short : bytes.length ≤ authMaxSize)
    (fits : (Auth.ofBytes bytes).bytes.length ≤ authValueMax)
    (absent : t.nv (slotHandle uid serves) = none) :
    onceExec n f (m.definePinSlot (slotHandle uid serves) bytes) t =
      (.error (.ofTss f.error),
        ⟨t.set (slotHandle uid serves) (some (slotIndex (.ofBytes bytes) none)), []⟩) := by
  have small : ¬ authValueMax < (Auth.ofBytes bytes).bytes.length := Nat.not_lt.2 fits
  interval_cases n <;>
    simp [onceExec, PinManager.definePinSlot, executeWithNullauthSession, ofTss, tpm, failAnswer,
      Auth.tryFrom, short,
      Except.mapError, Except.map, Tpm.exec, Tpm.assertInto, PolicySession.fresh, PolicySession.digest,
        Tpm.nvDefineSpace, slotPublic,
      PinData.SIZE, absent, small, -Nat.not_lt, -not_lt, Tpm.NvPublic.index, slotIndex, slotPolicy]

theorem definePinSlot_late (short : bytes.length ≤ authMaxSize)
    (fits : (Auth.ofBytes bytes).bytes.length ≤ authValueMax)
    (absent : t.nv (slotHandle uid serves) = none) :
    onceExec (n + 13) f (m.definePinSlot (slotHandle uid serves) bytes) t =
      (.ok (), Flaky.once n f
        (t.set (slotHandle uid serves)
          (some (slotIndex (.ofBytes bytes) (some ⟨0, m.policy.maxAttempts⟩))))) := by
  have small : ¬ authValueMax < (Auth.ofBytes bytes).bytes.length := Nat.not_lt.2 fits
  simp [onceExec, PinManager.definePinSlot, executeWithNullauthSession, ofTss, tpm, Auth.tryFrom, short,
      Except.mapError, Except.map, Tpm.exec, Tpm.assertInto, PolicySession.fresh, PolicySession.digest,
        Tpm.nvDefineSpace, slotPublic,
      PinData.SIZE, absent, small, -Nat.not_lt, -not_lt, Tpm.NvPublic.index, slotIndex, slotPolicy,
        Tpm.nvWrite, slotAttributes,
      NvIndex.policyAuthorizes, PolicyAssertion.permits, NvArea.written, NvArea.contents,
        Tpm.store, NvArea.write,
      NvArea.dataSize, PinData.toBytes_initial]

/-- The part of a setup after the reconnect. -/
def tagOrRollback (m : PinManager) (uid : UInt32) : PinM Unit := do
  match ← attempt (writePinVersionTag uid PIN_VERSION_CURRENT) with
  | .ok () => pure ()
  | .error err => do
    m.restartContext
    match ← attempt (deletePinAdmin uid) with
    | .ok () => throw (.tpmError (.tagWrite err))
    | .error cleanupErr => throw (.tpmError (.tagWriteAndRollback err cleanupErr))

section Setup

variable {pin : Pin}

/-- The slot as it is written. -/
def stored (m : PinManager) (pin : Pin) : NvIndex := slotIndex pin.auth (some ⟨0, m.policy.maxAttempts⟩)

theorem setupPin_once (absent : t.nv (slotHandle uid serves) = none) :
    onceExec (n + 3) f (m.setupPin uid pin) t =
      exec Tpm.exec.flaky (do
        m.definePinSlot (slotHandle uid serves) (asBytes pin.str)
        m.restartContext
        tagOrRollback m uid) (Flaky.once n f t) := by
  have read := @readPinSlotOwner_late uid serves t f n absent
  rw [onceExec] at read ⊢
  rw [PinManager.setupPin, nvIndexForUid_eq serves, exec_bind, exec_ofResult]
  dsimp only
  rw [exec_bind_ok read]
  rfl

theorem setupPin_early (early : n < 10) (fresh : Account.refusal (asBytes pin.str) .absent = none)
    (absent : t.nv (slotHandle uid serves) = none) :
    onceExec n f (m.setupPin uid pin) t = (.error (.ofTss f.error), ⟨t, []⟩) := by
  by_cases reading : n < 3
  · have read := @readPinSlotOwner_early uid serves t f n reading absent
    rw [onceExec] at read ⊢
    rw [PinManager.setupPin, nvIndexForUid_eq serves, exec_bind, exec_ofResult]
    exact exec_bind_error read
  · obtain ⟨n, rfl⟩ := Nat.exists_eq_add_of_le' (Nat.not_lt.1 reading)
    rw [setupPin_once absent]
    exact exec_bind_error (definePinSlot_trial (by omega) (refusal_eq_none.1 fresh).1)

theorem setupPin_half (start : 10 ≤ n) (early : n < 16)
    (fresh : Account.refusal (asBytes pin.str) .absent = none)
    (absent : t.nv (slotHandle uid serves) = none) :
    onceExec n f (m.setupPin uid pin) t =
      (.error (.ofTss f.error),
        ⟨t.set (slotHandle uid serves) (some (slotIndex pin.auth none)), []⟩) := by
  obtain ⟨short, -, fits⟩ := refusal_eq_none.1 fresh
  obtain ⟨n, rfl⟩ := Nat.exists_eq_add_of_le' (show 3 ≤ n by omega)
  rw [setupPin_once absent]
  exact exec_bind_error (definePinSlot_half (by omega) (by omega) short fits absent)

theorem setupPin_restart (fresh : Account.refusal (asBytes pin.str) .absent = none)
    (absent : t.nv (slotHandle uid serves) = none) :
    onceExec 16 f (m.setupPin uid pin) t =
      (.error (.ofTss f.error), ⟨t.set (slotHandle uid serves) (some (stored m pin)), []⟩) := by
  obtain ⟨short, -, fits⟩ := refusal_eq_none.1 fresh
  rw [setupPin_once absent]
  have define := @definePinSlot_late uid serves t m f 0 (asBytes pin.str) short fits absent
  rw [onceExec] at define
  rw [exec_bind_ok define]
  exact exec_bind_error rfl

theorem setupPin_late (fresh : Account.refusal (asBytes pin.str) .absent = none)
    (absent : t.nv (slotHandle uid serves) = none) :
    onceExec (n + 17) f (m.setupPin uid pin) t =
      onceExec n f (tagOrRollback m uid) (t.set (slotHandle uid serves) (some (stored m pin))) := by
  obtain ⟨short, -, fits⟩ := refusal_eq_none.1 fresh
  rw [show n + 17 = (n + 1 + 13) + 3 by omega, setupPin_once absent]
  have define := @definePinSlot_late uid serves t m f (n + 1) (asBytes pin.str) short fits absent
  rw [onceExec] at define
  rw [exec_bind_ok define]
  exact exec_bind_ok rfl

end Setup

/-! ## The tag and the rollback -/

/-- A command that leaves every index but the tag alone. -/
def OnTag (serves : Serves uid) (c : NvCmd) : Prop := ∀ i, c.index = some i → i = tagHandle uid serves

theorem writePinVersionTag_onTag {v : UInt8} : OnlyX (OnTag serves) (writePinVersionTag uid v) := by
  have existing : OnlyX (OnTag serves) (writePinVersionTagExisting (tagHandle uid serves) v) := by
    refine onlyX_mapErr (onlyX_bind (onlyX_op nofun) fun _ => onlyX_bind (onlyX_attempt ?_) fun _ => ?_)
    · exact onlyX_bind (onlyX_op fun i same => (Option.some.inj same).symm) fun _ =>
        onlyX_op fun i same => (Option.some.inj same).symm
    · exact onlyX_bind (onlyX_op nofun) fun _ => onlyX_ofResult
  have define : OnlyX (OnTag serves) (definePinVersionTag (tagHandle uid serves)) := by
    refine onlyX_mapErr (onlyX_bind (onlyX_op nofun) fun _ => onlyX_bind (onlyX_attempt ?_) fun _ => ?_)
    · exact onlyX_op fun i same => (Option.some.inj same).symm
    · exact onlyX_bind (onlyX_op nofun) fun _ => onlyX_ofResult
  unfold writePinVersionTag
  rw [versionNvIndexForUid_eq serves, ofResult_ok_bind]
  refine onlyX_bind (onlyX_attempt existing) fun r => ?_
  cases r with
  | ok _ => exact onlyX_pure
  | error e =>
    cases e with
    | tpmError _ => exact onlyX_bind define fun _ => existing
    | _ => exact onlyX_throw

theorem deletePinVersionTag_onTag : OnlyX (OnTag serves) (deletePinVersionTag uid) := by
  unfold deletePinVersionTag
  rw [versionNvIndexForUid_eq serves, ofResult_ok_bind]
  refine onlyX_bind
    (onlyX_attempt (onlyX_bind (onlyX_op nofun) fun _ => onlyX_bind (onlyX_attempt ?_) fun _ => ?_))
    fun r => ?_
  · exact onlyX_bind (onlyX_op fun i same => (Option.some.inj same).symm) fun _ =>
      onlyX_op fun i same => (Option.some.inj same).symm
  · exact onlyX_bind (onlyX_op nofun) fun _ => onlyX_ofResult
  · split
    · exact onlyX_pure
    · exact onlyX_pure
    · exact onlyX_pure
    · exact onlyX_throw

theorem onTag_step {P : Tpm → Prop} {c : NvCmd} {r : Answer c} {t' : Tpm} {x : Option NvIndex}
    (onTag : OnTag serves c) (held : t.nv (slotHandle uid serves) = x)
    (step : Faulty Tpm.exec P c t r t') :
    t'.nv (slotHandle uid serves) = x := by
  cases step with
  | failed => exact held
  | done =>
    rw [exec_frame fun named => slotHandle_ne_tagHandle (onTag _ named)]
    exact held

/-- Work on the tag leaves the slot as it is, whatever fails. -/
theorem onTag_frame {ε α : Type} {x : Fallible NvCmd ε α} (only : OnlyX (OnTag serves) x)
    (s : Flaky Fault Tpm) :
    (exec Tpm.exec.flaky x s).2.state.nv (slotHandle uid serves) =
    s.state.nv (slotHandle uid serves) := by
  let kept : Tpm → Prop := fun t => t.nv (slotHandle uid serves) = s.state.nv (slotHandle uid serves)
  have spec : wpx (Faulty Tpm.exec fun _ => True) kept x (fun _ => kept) s.state := by
    refine wpx_only (fun c t r t' onTag held step => ?_) only rfl
    exact onTag_step onTag held step
  exact wpx_exec Tpm.exec.flaky_within spec

theorem deletePinAdmin_early {x : NvIndex} (early : n < 3)
    (present : t.nv (slotHandle uid serves) = some x) :
    onceExec n f (deletePinAdmin uid) t = (.error (.ofTss f.error), ⟨t, []⟩) := by
  rw [onceExec, deletePinAdmin, nvIndexForUid_eq serves, ofResult_ok_bind]
  interval_cases n <;>
    simp [executeWithNullauthSession, tpm, failAnswer, Fault.error, Tpm.exec, present]

/-- Once the slot is undefined it stays so. -/
theorem deletePinAdmin_late {x : NvIndex} (present : t.nv (slotHandle uid serves) = some x)
    {faults : List (Option Fault)} (late : faults.take 3 = [none, none, none] ∨ faults = []) :
    (exec Tpm.exec.flaky (deletePinAdmin uid) ⟨t, faults⟩).2.state.nv
      (slotHandle uid serves) = none := by
  have session : (exec Tpm.exec.flaky (executeWithNullauthSession do
      let _ ← tpm (.nvReadPublic (slotHandle uid serves))
      tpm (.nvUndefineSpace (slotHandle uid serves))) ⟨t, faults⟩).2.state.nv
        (slotHandle uid serves) = none := by
    obtain late | rfl := late
    · obtain ⟨rest, rfl⟩ : ∃ rest, faults = none :: none :: none :: rest := by
        have split := List.take_append_drop 3 faults
        rw [late] at split
        exact ⟨_, split.symm⟩
      cases rest with
      | nil => simp [executeWithNullauthSession, tpm, Tpm.exec, present]
      | cons fault rest =>
        -- the flush may fail: the slot is already gone
        cases fault <;> simp [executeWithNullauthSession, tpm, failAnswer, Tpm.exec, present]
    · simp [executeWithNullauthSession, tpm, Tpm.exec, present]
  rw [deletePinAdmin, nvIndexForUid_eq serves, ofResult_ok_bind, exec_bind, exec_attempt]
  dsimp only
  rw [onTag_frame]
  · exact session
  · split
    · exact onlyX_bind (onlyX_attempt deletePinVersionTag_onTag) fun _ => onlyX_pure
    · exact onlyX_throw
    · exact onlyX_throw
    · exact onlyX_throw

/-- The index that stands for the tag is not one the owner can write the version to. -/
def TagRefuses (serves : Serves uid) (t : Tpm) : Prop :=
  ∃ x, t.nv (tagHandle uid serves) = some x ∧
    (x.attributes.ownerWrite = true → ∀ area, x.area.write 0 [PIN_VERSION_CURRENT] ≠ .ok area)

theorem TagRefuses.refusal (refuses : TagRefuses serves t) :
    ∃ x kind, t.nv (tagHandle uid serves) = some x ∧
    Tpm.exec (.nvWrite .owner (tagHandle uid serves) [PIN_VERSION_CURRENT] 0) t = (refuse kind, t) := by
  obtain ⟨x, present, refuses⟩ := refuses
  simp only [Tpm.exec, Tpm.nvWrite, present]
  by_cases writable : x.attributes.ownerWrite
  · rw [if_pos writable, Tpm.store]
    cases written : x.area.write 0 [PIN_VERSION_CURRENT] with
    | ok area => exact absurd written (refuses writable area)
    | error kind => exact ⟨x, kind, rfl, by rw [Tpm.set_self present]⟩
  · exact ⟨x, _, rfl, if_neg writable⟩

theorem tag_write_accepted {x : NvIndex} (present : t.nv (tagHandle uid serves) = some x)
    (accepts : ¬ TagRefuses serves t) :
    ∃ t', Tpm.exec (.nvWrite .owner (tagHandle uid serves) [PIN_VERSION_CURRENT] 0) t =
    (.ok (), t') := by
  obtain ⟨writable, area, written⟩ :
    x.attributes.ownerWrite = true ∧ ∃ area, x.area.write 0 [PIN_VERSION_CURRENT] = .ok area := by
    by_contra no
    exact accepts ⟨x, present, fun writable area written => no ⟨writable, area, written⟩⟩
  simp only [Tpm.exec, Tpm.nvWrite, present]
  rw [if_pos writable, Tpm.store, written]
  exact ⟨_, rfl⟩

theorem writePinVersionTag_refused_early (early : n < 7) (refuses : TagRefuses serves t) :
    ∃ e, onceExec n f (writePinVersionTag uid PIN_VERSION_CURRENT) t = (.error e, ⟨t, []⟩) := by
  obtain ⟨x, kind, present, refused⟩ := refuses.refusal
  have defined :
      Tpm.exec (.nvDefineSpace Auth.empty (tagPublic (tagHandle uid serves))) t =
      (refuse .nvDefined, t) := by
    simp [Tpm.exec, Tpm.nvDefineSpace, tagPublic, present]
  have public_ : Tpm.exec (.nvReadPublic (tagHandle uid serves)) t = (.ok x.area.dataSize, t) := by
    simp [Tpm.exec, present]
  have start : ∀ ty, Tpm.exec (.startAuthSession ty) t = (.ok .fresh, t) := fun _ => rfl
  have flush : Tpm.exec .flushContext t = (.ok (), t) := rfl
  rw [onceExec, writePinVersionTag, versionNvIndexForUid_eq serves, ofResult_ok_bind]
  interval_cases n <;>
    simp [writePinVersionTagExisting, definePinVersionTag, executeWithNullauthSession,
      ofTss, tpm, failAnswer,
      Except.mapError, PinError.ofTss, public_, defined, refused, start, flush, refuse]

theorem writePinVersionTag_refused_late (refuses : TagRefuses serves t) :
    ∃ e, onceExec (n + 7) f (writePinVersionTag uid PIN_VERSION_CURRENT) t =
    (.error e, Flaky.once n f t) := by
  obtain ⟨x, kind, present, refused⟩ := refuses.refusal
  have defined :
      Tpm.exec (.nvDefineSpace Auth.empty (tagPublic (tagHandle uid serves))) t =
      (refuse .nvDefined, t) := by
    simp [Tpm.exec, Tpm.nvDefineSpace, tagPublic, present]
  have public_ : Tpm.exec (.nvReadPublic (tagHandle uid serves)) t = (.ok x.area.dataSize, t) := by
    simp [Tpm.exec, present]
  have start : ∀ ty, Tpm.exec (.startAuthSession ty) t = (.ok .fresh, t) := fun _ => rfl
  have flush : Tpm.exec .flushContext t = (.ok (), t) := rfl
  rw [onceExec, writePinVersionTag, versionNvIndexForUid_eq serves, ofResult_ok_bind]
  simp [writePinVersionTagExisting, definePinVersionTag, executeWithNullauthSession, ofTss, tpm,
      Except.mapError, PinError.ofTss, public_, defined, refused, start, flush, refuse]

theorem writePinVersionTag_accepted (accepts : ¬ TagRefuses serves t) :
    (exec Tpm.exec (writePinVersionTag uid PIN_VERSION_CURRENT) t).1 = .ok () := by
  rw [writePinVersionTag, versionNvIndexForUid_eq serves, ofResult_ok_bind]
  cases tag : t.nv (tagHandle uid serves) with
  | none =>
    simp [writePinVersionTagExisting, definePinVersionTag, executeWithNullauthSession, ofTss, tpm,
      Except.mapError, PinError.ofTss, Tpm.exec, tag, refuse, Tpm.nvDefineSpace, tagPublic,
        Tpm.NvPublic.index, Auth.empty,
      Tpm.nvWrite, tagAttributes, Tpm.store, NvArea.write, PIN_VERSION_TAG_SIZE]
  | some x =>
    obtain ⟨t', ok⟩ := tag_write_accepted tag accepts
    have public_ : Tpm.exec (.nvReadPublic (tagHandle uid serves)) t = (.ok x.area.dataSize, t) := by
      simp [Tpm.exec, tag]
    have start : ∀ ty, Tpm.exec (.startAuthSession ty) t = (.ok .fresh, t) := fun _ => rfl
    have flush : Tpm.exec .flushContext t' = (.ok (), t') := rfl
    simp [writePinVersionTagExisting, executeWithNullauthSession, ofTss, tpm, Except.mapError,
      public_, start, ok, flush]

/-! ## The setup -/

/-- A setup whose slot the TPM refuses leaves the TPM as it is, whatever fails. -/
theorem setupPin_refused {pin : Pin} (refused : ∀ a, Auth.tryFrom (asBytes pin.str) = .ok a →
      ∃ kind, Tpm.exec (.nvDefineSpace a (slotPublic (slotHandle uid serves) slotPolicy))
        t = (refuse kind, t))
    (faults : List (Option Fault)) :
    (exec Tpm.exec.flaky (m.setupPin uid pin) ⟨t, faults⟩).2.state = t := by
  have spec : wpx (Faulty Tpm.exec fun _ => True) (· = t) (m.setupPin uid pin)
      (fun _ t' => t' = t) t := by
    have read : wpx (Faulty Tpm.exec fun _ => True) (· = t) (readPinSlotOwner (slotHandle uid serves))
        (fun _ t' => t' = t) t :=
      wpx_quiet readPinSlotOwner_quiet
    unfold PinManager.setupPin PinManager.definePinSlot
    rw [nvIndexForUid_eq serves, ofResult_ok_bind]
    refine wpx_bind.2 (wpx_mono read fun r t' _ same => ?_)
    subst same
    cases r with
    | error e => exact ⟨rfl, rfl⟩
    | ok existing =>
      dsimp only
      by_cases written : existing.isSome
      · rw [if_pos written]
        exact ⟨rfl, rfl⟩
      rw [if_neg written]
      refine wpx_bind.2 (wpx_bind.2 (wpx_ofTss ?_))
      cases auth : Auth.tryFrom (asBytes pin.str) with
      | error e => exact ⟨rfl, rfl, rfl, rfl⟩
      | ok a =>
        obtain ⟨kind, refused⟩ := refused a auth
        have failed : ∀ (e : PinError), t' = t' ∧
            (fun (_ : Except PinError Unit) t'' => t'' = t') (.error e) t' :=
          fun _ => ⟨rfl, rfl⟩
        refine ⟨rfl, wpx_bind.2 (wpx_ofTss ?_)⟩
        refine wpx_bind.2 (wpx_tpm rfl rfl rfl ?_ fun _ f => ⟨rfl, rfl, rfl, rfl⟩)
        refine wpx_bind.2 (wpx_tpm rfl rfl rfl ?_ fun _ f => ⟨rfl, rfl, rfl, rfl⟩)
        refine wpx_bind.2 (wpx_tpm rfl rfl rfl ?_ fun _ f => ⟨rfl, rfl, rfl, rfl⟩)
        refine wpx_bind.2 (wpx_tpm rfl rfl rfl ?_ fun _ f => ⟨rfl, rfl, rfl, rfl⟩)
        refine wpx_bind.2 (wpx_tpm rfl rfl rfl ⟨rfl, ?_⟩ fun _ f => ⟨rfl, rfl, rfl, rfl⟩)
        refine wpx_bind.2 (wpx_ofTss (wpx_session rfl (fun _ f => ⟨rfl, rfl, rfl⟩) ?_))
        refine wpx_tpm refused rfl rfl ?_ fun _ f => ⟨⟨rfl, rfl, rfl⟩, fun _ f => ⟨rfl, rfl, rfl⟩⟩
        exact ⟨⟨rfl, rfl, rfl⟩, fun _ f => ⟨rfl, rfl, rfl⟩⟩
  exact wpx_exec Tpm.exec.flaky_within (show wpx _ _ _ _ (Flaky.state ⟨t, faults⟩) from spec)

theorem TagRefuses.set_slot {x : Option NvIndex} :
    TagRefuses serves (t.set (slotHandle uid serves) x) ↔ TagRefuses serves t := by
  unfold TagRefuses
  rw [Tpm.nv_set_of_ne slotHandle_ne_tagHandle.symm]

theorem tagOrRollback_ok {s s' : Flaky Fault Tpm}
    (tagged : exec Tpm.exec.flaky (writePinVersionTag uid PIN_VERSION_CURRENT) s = (.ok (), s')) :
    exec Tpm.exec.flaky (tagOrRollback m uid) s = (.ok (), s') := by
  unfold tagOrRollback
  rw [exec_bind, exec_attempt, tagged]
  rfl

theorem tagOrRollback_error {s s' : Flaky Fault Tpm} {err : PinError}
    (untagged : exec Tpm.exec.flaky (writePinVersionTag uid PIN_VERSION_CURRENT) s = (.error err, s')) :
    exec Tpm.exec.flaky (tagOrRollback m uid) s = exec Tpm.exec.flaky (do
      m.restartContext
      match ← attempt (deletePinAdmin uid) with
      | .ok () => throw (.tpmError (.tagWrite err))
      | .error cleanupErr => throw (.tpmError (.tagWriteAndRollback err cleanupErr)) :
        PinM Unit) s' := by
  unfold tagOrRollback
  rw [exec_bind, exec_attempt, untagged]

/-- A rollback whose first four commands do not fail removes the slot. -/
theorem rollback_removes {err : PinError} {x : NvIndex} {faults : List (Option Fault)}
    (present : t.nv (slotHandle uid serves) = some x)
    (late : faults.take 4 = [none, none, none, none] ∨ faults = []) :
    (exec Tpm.exec.flaky (do
      m.restartContext
      match ← attempt (deletePinAdmin uid) with
      | .ok () => throw (.tpmError (.tagWrite err))
      | .error cleanupErr => throw (.tpmError (.tagWriteAndRollback err cleanupErr)) : PinM Unit)
        ⟨t, faults⟩).2.state.nv (slotHandle uid serves) = none := by
  have restart : ∃ faults', exec Tpm.exec.flaky m.restartContext ⟨t, faults⟩ = (.ok (), ⟨t, faults'⟩) ∧
      (faults'.take 3 = [none, none, none] ∨ faults' = []) := by
    match faults, late with
    | none :: rest, .inl late => exact ⟨rest, rfl, .inl (List.cons.inj late).2⟩
    | [], _ => exact ⟨[], rfl, .inr rfl⟩
  obtain ⟨faults', restarted, late'⟩ := restart
  rw [exec_bind_ok restarted, exec_bind, exec_attempt]
  have gone := deletePinAdmin_late present late'
  dsimp only
  split <;> exact gone

section Main

variable {pin : Pin}

/-- A failed setup leaves the slot's index as it was. -/
def Traceless (m : PinManager) (uid : UInt32) (pin : Pin) (n : Nat) (f : Fault) (t : Tpm) : Prop :=
  ∀ (serves : Serves uid) (e : PinError), (onceExec n f (m.setupPin uid pin) t).1 = .error e →
    (onceExec n f (m.setupPin uid pin) t).2.state.nv (slotHandle uid serves) =
    t.nv (slotHandle uid serves)

/-- The failing command finds a slot that nothing will remove: from the definition to
the reconnect, or in the rollback where the tag cannot be written at all. -/
def StrandsSlot (uid : UInt32) (pin : Pin) (n : Nat) (t : Tpm) : Prop :=
  ∃ serves : Serves uid, t.nv (slotHandle uid serves) = none ∧
  Account.refusal (asBytes pin.str) .absent = none ∧
    (10 ≤ n ∧ n ≤ 16 ∨ TagRefuses serves t ∧ 24 ≤ n ∧ n ≤ 27)

theorem StrandsSlot.not_traceless (strands : StrandsSlot uid pin n t) :
    ¬ Traceless m uid pin n f t := by
  obtain ⟨serves, absent, fresh, window⟩ := strands
  intro traceless
  have there : ∀ x e, onceExec n f (m.setupPin uid pin) t =
      (.error e, ⟨t.set (slotHandle uid serves) (some x), []⟩) → False := by
    intro x e run
    have same := traceless serves e (by rw [run])
    rw [run, absent] at same
    simp at same
  obtain ⟨start, stop⟩ | ⟨refuses, start, stop⟩ := window
  · by_cases early : n < 16
    · exact there _ _ (setupPin_half start early fresh absent)
    · obtain rfl : n = 16 := by omega
      exact there _ _ (setupPin_restart fresh absent)
  · obtain ⟨i, rfl⟩ := Nat.exists_eq_add_of_le' (show 24 ≤ n by omega)
    have present :
        (t.set (slotHandle uid serves) (some (stored m pin))).nv (slotHandle uid serves) =
        some (stored m pin) :=
      Tpm.nv_set_self
    have refuses' := (@TagRefuses.set_slot uid serves t (some (stored m pin))).2 refuses
    obtain ⟨e, untagged⟩ := @writePinVersionTag_refused_late uid serves _ f i refuses'
    have run := (@setupPin_late uid serves t m f (i + 7) pin fresh absent).trans
        (tagOrRollback_error untagged)
    cases i with
    | zero => exact there _ _ (run.trans (exec_bind_error rfl))
    | succ i =>
      have kept := @deletePinAdmin_early uid serves _ f i _ (by omega) present
      refine there (stored m pin) (.tpmError (.tagWriteAndRollback e (.ofTss f.error))) (run.trans ?_)
      have restarted : exec Tpm.exec.flaky m.restartContext
          (Flaky.once (i + 1) f (t.set (slotHandle uid serves) (some (stored m pin)))) =
            (.ok (), Flaky.once i f (t.set (slotHandle uid serves) (some (stored m pin)))) := rfl
      rw [exec_bind_ok restarted, exec_bind, exec_attempt,
        show exec Tpm.exec.flaky (deletePinAdmin uid) _ = _ from kept]
      rfl

/-- A setup that fails leaves no trace exactly when the failing command does not find
the new slot outside the reach of the rollback. -/
theorem setupPin_traceless_iff : Traceless m uid pin n f t ↔ ¬ StrandsSlot uid pin n t := by
  refine ⟨fun traceless strands => strands.not_traceless traceless, fun safe serves e failed => ?_⟩
  cases slot : t.nv (slotHandle uid serves) with
  | some x =>
    have defined : ∀ a, Auth.tryFrom (asBytes pin.str) = .ok a →
        ∃ kind, Tpm.exec (.nvDefineSpace a (slotPublic (slotHandle uid serves) slotPolicy)) t =
        (refuse kind, t) := by
      intro a _
      exact ⟨.nvDefined, by simp [Tpm.exec, Tpm.nvDefineSpace, slotPublic, slot]⟩
    rw [onceExec, Flaky.once, setupPin_refused defined, slot]
  | none =>
    cases fresh : Account.refusal (asBytes pin.str) .absent with
    | some err =>
      have unfit : ∀ a, Auth.tryFrom (asBytes pin.str) = .ok a →
          ∃ kind, Tpm.exec (.nvDefineSpace a (slotPublic (slotHandle uid serves) slotPolicy)) t =
          (refuse kind, t) := by
        intro a made
        unfold Auth.tryFrom at made
        by_cases short : (asBytes pin.str).length ≤ authMaxSize
        · rw [if_pos short] at made
          cases made
          have large : authValueMax < (Auth.ofBytes (asBytes pin.str)).bytes.length := by
            by_contra fits
            rw [refusal_eq_none.2 ⟨short, rfl, Nat.not_lt.1 fits⟩] at fresh
            cases fresh
          exact ⟨.size, by simp [Tpm.exec, Tpm.nvDefineSpace, slotPublic, slot, large]⟩
        · rw [if_neg short] at made
          cases made
      rw [onceExec, Flaky.once, setupPin_refused unfit, slot]
    | none =>
      have window : ¬ (10 ≤ n ∧ n ≤ 16 ∨ TagRefuses serves t ∧ 24 ≤ n ∧ n ≤ 27) :=
        fun w => safe ⟨serves, slot, fresh, w⟩
      by_cases early : n < 10
      · rw [setupPin_early early fresh slot]
        exact slot
      obtain ⟨j, rfl⟩ := Nat.exists_eq_add_of_le' (show 17 ≤ n by omega)
      have late := @setupPin_late uid serves t m f j pin fresh slot
      have present :
          (t.set (slotHandle uid serves) (some (stored m pin))).nv (slotHandle uid serves) =
          some (stored m pin) :=
        Tpm.nv_set_self
      rw [late] at failed ⊢
      by_cases refuses : TagRefuses serves t
      · have refuses' := (@TagRefuses.set_slot uid serves t (some (stored m pin))).2 refuses
        by_cases early : j < 7
        · obtain ⟨err, untagged⟩ := @writePinVersionTag_refused_early uid serves _ f j early refuses'
          rw [onceExec, tagOrRollback_error untagged]
          exact rollback_removes present (.inr rfl)
        · have outside : ¬ (24 ≤ j + 17 ∧ j + 17 ≤ 27) := fun w => window (.inr ⟨refuses, w⟩)
          obtain ⟨i, rfl⟩ := Nat.exists_eq_add_of_le' (show 11 ≤ j by omega)
          obtain ⟨err, untagged⟩ := @writePinVersionTag_refused_late uid serves _ f (i + 4) refuses'
          rw [onceExec, tagOrRollback_error untagged]
          exact rollback_removes present (.inl rfl)
      · have accepts : ¬ TagRefuses serves (t.set (slotHandle uid serves) (some (stored m pin))) :=
          fun r => refuses (TagRefuses.set_slot.1 r)
        have accepted := writePinVersionTag_accepted accepts
        cases tagged :
          onceExec j f (writePinVersionTag uid PIN_VERSION_CURRENT)
            (t.set (slotHandle uid serves) (some (stored m pin))) with
        | mk r s =>
          cases r with
          | ok _ =>
            rw [onceExec, tagOrRollback_ok tagged] at failed
            cases failed
          | error err =>
            -- the fault was used up, since the tag is written without it
            have used : s.faults = [] := by
              obtain ⟨-, done⟩ | ⟨-, used⟩ :=
                (writePinVersionTag uid PIN_VERSION_CURRENT).run.run_once j f
                (t.set (slotHandle uid serves) (some (stored m pin)))
              · have same := congrArg Prod.fst (tagged.symm.trans done)
                cases same.trans accepted
              · exact (congrArg (Flaky.faults ∘ Prod.snd) tagged).symm.trans used
            have kept : s.state.nv (slotHandle uid serves) = some (stored m pin) :=
              (congrArg (fun r => r.2.state.nv (slotHandle uid serves)) tagged).symm.trans
                ((onTag_frame writePinVersionTag_onTag _).trans present)
            obtain ⟨state, faults⟩ := s
            subst used
            rw [onceExec, tagOrRollback_error tagged]
            exact rollback_removes kept (.inr rfl)

/-- The flush after the definition fails: the setup fails and the slot stays defined. -/
theorem setupPin_leaves_slot : ¬ Traceless defaultManager 1000 plainPin 10 ⟨0⟩ Tpm.empty :=
  StrandsSlot.not_traceless ⟨by decide, rfl, by decide +kernel, .inl ⟨by decide, by decide⟩⟩

end Main

end Rollback

end Pinpam
