import Pinpam.Core.Operations

/-!
# Verifying never destroys a PIN

Whatever fails, a verification leaves a written slot, and one that succeeded is
followed by another that succeeds, unless it re-spells a legacy slot: then the slot
is deleted and set up anew, and a failure on the way is swallowed.
-/

namespace Pinpam
set_option autoImplicit false
open Pinpam.Effect Pinpam.Effect.Fallible

section Survival

variable {uid limit : UInt32} {serves : Serves uid} {t : Tpm} {acc : Account} {pin : Pin}
  {m : PinManager} {a : Auth} {c : PinCounters}

/-- The slot is written, and a PIN reported as correct is accepted again. -/
def Account.Endures (pin : Pin) (r : PinResult VerificationResult) (acc : Account) : Prop :=
  (∃ a c, acc.slot = .written a c) ∧ ∀ data, r = .ok (.success data) → ∃ c, acc.Accepts pin c

/-- The verification takes the branch that replaces a legacy slot by one for the PIN as
it is spelled. -/
def Respelled (pin : Pin) (acc : Account) : Prop :=
  acc.tag.read = none ∧ normalizeLegacyPin pin.str ≠ pin.str ∧ ∃ c, acc.Accepts pin c

/-! ## Without the branch -/

theorem compared_written (slot : acc.slot = .written a c) (b : Auth) :
    ∃ c', acc.slot.compared b = .written a c' := by
  rw [slot]
  by_cases locked : c.locked
  · exact ⟨c, compared_locked locked⟩
  by_cases hit : b = a
  · subst hit
    exact ⟨_, compared_hit locked⟩
  · exact ⟨_, compared_miss locked hit⟩

theorem accepts_of_hit {data : PinData} (legacy : acc.tag.read = none)
    (hit : (acc.verifyPinExact uid (asBytes (normalizeLegacyPin pin.str))).1 = .ok (.success data)) :
    ∃ c, acc.Accepts pin c := by
  obtain ⟨short, c, slot, unlocked, low, -⟩ := exact_success hit
  exact ⟨c, .legacy legacy ⟨slot, unlocked, low⟩ short⟩

theorem migrates_canonical {acc' : Account} (canonical : normalizeLegacyPin pin.str = pin.str)
    (migrates : acc.Migrates pin limit acc') :
    ∃ tag, acc.tag.Becomes PIN_VERSION_CURRENT tag ∧ acc' = { acc with tag } := by
  cases migrates with
  | start => exact ⟨acc.tag, .same, rfl⟩
  | tagged _ becomes => exact ⟨_, becomes, rfl⟩
  | replaced spelled => exact absurd canonical spelled

theorem verifies_written {acc' : Account} (keeps : ¬ Respelled pin acc) (slot : acc.slot = .written a c)
    (verifies : acc.Verifies uid pin limit acc') : ∃ c', acc'.slot = .written a c' := by
  cases verifies with
  | start => exact ⟨c, slot⟩
  | compared => exact compared_written slot pin.auth
  | comparedLegacy => exact compared_written slot pin.legacyAuth
  | migrates legacy hit migrates =>
    have canonical : normalizeLegacyPin pin.str = pin.str := by
      by_contra spelled
      exact keeps ⟨legacy, spelled, accepts_of_hit legacy hit⟩
    obtain ⟨tag, -, rfl⟩ := migrates_canonical canonical migrates
    exact compared_written slot pin.legacyAuth

/-- A legacy slot that accepted its canonical spelling accepts it whatever became of
the tag. -/
theorem accepts_tagged {tag : TagState} (canonical : normalizeLegacyPin pin.str = pin.str)
    (legacy : acc.tag.read = none) (opens : acc.slot.Opens pin.legacyAuth c)
    (short : (asBytes (normalizeLegacyPin pin.str)).length ≤ authMaxSize)
    (becomes : acc.tag.Becomes PIN_VERSION_CURRENT tag) :
    Account.Accepts pin ⟨acc.slot.compared pin.legacyAuth, tag⟩ (c.after true) := by
  have again : (acc.slot.compared pin.legacyAuth).Opens pin.legacyAuth (c.after true) := by
    rw [opens.written, compared_hit opens.unlocked]
    exact opens.again
  cases becomes with
  | same => exact .legacy legacy again short
  | defined => exact .legacy rfl again short
  | written =>
    refine .current rfl ?_ (canonical ▸ short)
    rw [← Pin.legacyAuth_canonical canonical]
    exact again

theorem verifyPin_endures (keeps : ¬ Respelled pin acc) (slot : acc.slot = .written a c) :
    Account.Endures pin (acc.verifyPin uid pin m.policy.maxAttempts).1
      (acc.verifyPin uid pin m.policy.maxAttempts).2 := by
  obtain ⟨c', slot'⟩ := verifies_written keeps slot verifies_result
  refine ⟨⟨a, c', slot'⟩, fun data success => ?_⟩
  obtain ⟨c, ⟨tag, opens, short⟩ | ⟨legacy, opens, short⟩, -⟩ := verifyPin_success_iff.1 success
  · rw [verifyPin_current tag, opens.exact short]
    exact ⟨_, .current tag opens.again short⟩
  · have canonical : normalizeLegacyPin pin.str = pin.str := by
      by_contra spelled
      exact keeps ⟨legacy, spelled, c, .legacy legacy opens short⟩
    rw [verifyPin_legacy legacy opens short, Account.migrateLegacyPinFormat, if_pos canonical]
    have again := accepts_tagged canonical legacy opens short .written
    rw [opens.written, compared_hit opens.unlocked] at again
    exact ⟨_, again⟩

/-- Off the branch every run endures, whatever fails. -/
theorem endures_of_not_respelled (keeps : ¬ Respelled pin acc) (slot : acc.slot = .written a c) :
    wpx (Faulty Tpm.exec fun _ => True) (fun _ => True) (m.verifyPin uid pin)
      (fun r t' => ∃ acc', t' = t.put serves acc' ∧ acc'.Endures pin r) (t.put serves acc) := by
  refine wpx_verifyPin (fun _ _ => trivial) ⟨_, rfl, verifyPin_endures keeps slot⟩ ?_ ?_ ?_
  · intro acc' b verifies _ _ _ e
    obtain ⟨c', slot'⟩ := verifies_written keeps slot verifies
    exact ⟨acc', rfl, ⟨a, c', slot'⟩, nofun⟩
  · intro data acc' b legacy hit migrates _ _ _
    have verifies : acc.Verifies uid pin m.policy.maxAttempts _ := .migrates legacy hit migrates
    obtain ⟨c', slot'⟩ := verifies_written keeps slot verifies
    obtain ⟨short, c, slot, unlocked, low, -⟩ := exact_success hit
    have canonical : normalizeLegacyPin pin.str = pin.str := by
      by_contra spelled
      exact keeps ⟨legacy, spelled, accepts_of_hit legacy hit⟩
    obtain ⟨tag, becomes, rfl⟩ := migrates_canonical canonical migrates
    exact ⟨_, rfl, ⟨a, c', slot'⟩,
      fun _ _ => ⟨_, accepts_tagged canonical legacy ⟨slot, unlocked, low⟩ short becomes⟩⟩
  · intro _ _
    obtain ⟨c', slot'⟩ := verifies_written keeps slot (@verifies_result uid acc m pin)
    exact ⟨_, rfl, ⟨a, c', slot'⟩, nofun⟩

/-! ## On the branch -/

theorem readPinVersionTag_late {f : Fault} (legacy : acc.tag.read = none) : ∃ b, ∀ n,
    exec Tpm.exec.flaky (readPinVersionTag uid) (Flaky.once (n + b) f (t.put serves acc)) =
      (.ok none, Flaky.once n f (t.put serves acc)) := by
  obtain ⟨slot, tag⟩ := acc
  cases tag with
  | absent =>
    refine ⟨3, fun n => ?_⟩
    rw [readPinVersionTag, versionNvIndexForUid_eq serves, ofResult_ok_bind]
    simp [readFull, executeWithNullauthSession, tpm, Tpm.exec, TagState.index, refuse]
  | unwritten =>
    refine ⟨4, fun n => ?_⟩
    rw [readPinVersionTag, versionNvIndexForUid_eq serves, ofResult_ok_bind]
    simp [readFull, executeWithNullauthSession, tpm, Tpm.exec, Tpm.nvRead, TagState.index,
      tagIndex, tagAttributes,
      NvIndex.read, NvArea.contents, NvArea.dataSize, refuse]
  | version v => cases legacy

theorem verifyPinExact_late {n : Nat} {f : Fault} {bytes : Bytes}
    (opens : acc.slot.Opens (.ofBytes bytes) c) (short : bytes.length ≤ authMaxSize) :
    exec Tpm.exec.flaky (verifyPinExact uid bytes) (Flaky.once (n + 4) f (t.put serves acc)) =
      (.ok (.success (c.after true).data),
        Flaky.once n f
          (t.put serves { acc with slot := .written (.ofBytes bytes) (c.after true) })) := by
  obtain ⟨slot, tag⟩ := acc
  obtain ⟨rfl, unlocked, low⟩ := opens
  have public_ : ∀ acc : Account, acc.slot ≠ .absent →
      Tpm.exec (.nvReadPublic (slotHandle uid serves)) (t.put serves acc) =
      (.ok PinData.SIZE, t.put serves acc) := by
    intro acc present
    rw [exec_nvReadPublic_slot, if_neg present]
  have start : ∀ t, Tpm.exec (.startAuthSession .hmac) t = (.ok .fresh, t) := fun _ => rfl
  have flush : ∀ t, Tpm.exec .flushContext t = (.ok (), t) := fun _ => rfl
  have read : Tpm.exec (.nvRead (.index (.ofBytes bytes)) (slotHandle uid serves) PinData.SIZE 0)
      (t.put serves ⟨.written (.ofBytes bytes) c, tag⟩) =
        (.ok (c.after true).toBytes, t.put serves ⟨.written (.ofBytes bytes) (c.after true), tag⟩) := by
    rw [exec_nvRead_slot_index]
    simp only [if_neg unlocked, if_true, compared_hit unlocked]
  have below : (c.after true).data.atLimit = false := by
    rw [atLimit_after_hit unlocked]
    exact decide_eq_false (by omega)
  rw [verifyPinExact, nvIndexForUid_eq serves, ofResult_ok_bind]
  simp [executeWithNullauthSession, ofTss, tpm, Auth.tryFrom, short, Except.mapError, Except.bind,
    public_, start, flush, read,
    below]

/-- The flush after the slot is undefined fails: the slot is gone, the tag is as it was. -/
theorem deletePinAdmin_flush {f : Fault} (present : acc.slot ≠ .absent) :
    exec Tpm.exec.flaky (deletePinAdmin uid) (Flaky.once 3 f (t.put serves acc)) =
      (.error (.ofTss f.error), ⟨t.put serves { acc with slot := .absent }, []⟩) := by
  have undefine : Tpm.exec (.nvUndefineSpace (slotHandle uid serves)) (t.put serves acc) = _ :=
    exec_nvUndefineSpace_slot present
  have public_ : Tpm.exec (.nvReadPublic (slotHandle uid serves)) (t.put serves acc) = _ :=
    exec_nvReadPublic_slot
  rw [if_neg present] at public_
  rw [deletePinAdmin, nvIndexForUid_eq serves, ofResult_ok_bind]
  have start : Tpm.exec (.startAuthSession .hmac) (t.put serves acc) =
      (.ok .fresh, t.put serves acc) := rfl
  simp [executeWithNullauthSession, tpm, failAnswer, Fault.error, start, public_, undefine]

/-- A run on the branch that is stopped there: the PIN is reported as correct and the
slot is gone. -/
theorem respelled_destroys (respelled : Respelled pin acc) (f : Fault) : ∃ faults data tag,
    exec Tpm.exec.flaky (m.verifyPin uid pin) ⟨t.put serves acc, faults⟩ =
      (.ok (.success data), ⟨t.put serves ⟨.absent, tag⟩, []⟩) := by
  obtain ⟨legacy, spelled, c, ⟨current, -, -⟩ | ⟨-, opens, short⟩⟩ := respelled
  · rw [legacy] at current
    cases current
  obtain ⟨b, read⟩ := @readPinVersionTag_late uid serves t acc f legacy
  refine ⟨(Flaky.once (3 + 1 + 4 + b) f (t.put serves acc)).faults, (c.after true).data, acc.tag, ?_⟩
  show exec Tpm.exec.flaky (m.verifyPin uid pin) (Flaky.once (3 + 1 + 4 + b) f (t.put serves acc)) = _
  unfold PinManager.verifyPin
  rw [exec_bind_ok (read _)]
  dsimp only
  rw [exec_bind_ok (verifyPinExact_late opens short)]
  dsimp only
  have restart :
      ∀ n t, exec Tpm.exec.flaky m.restartContext (Flaky.once (n + 1) f t) =
      (.ok (), Flaky.once n f t) :=
    fun _ _ => rfl
  rw [exec_bind_ok (restart 3 _), exec_bind, exec_attempt]
  have stopped : exec Tpm.exec.flaky (m.migrateLegacyPinFormat uid pin)
      (Flaky.once 3 f (t.put serves
        { acc with slot := .written (.ofBytes (asBytes (normalizeLegacyPin pin.str))) (c.after true) })) =
        (.error (.ofTss f.error), ⟨t.put serves ⟨.absent, acc.tag⟩, []⟩) := by
    unfold PinManager.migrateLegacyPinFormat
    rw [if_neg spelled]
    exact exec_bind_error (deletePinAdmin_flush nofun)
  rw [show exec Tpm.exec.flaky (m.migrateLegacyPinFormat uid pin) _ = _ from stopped]
  rfl

/-! ## The condition -/

/-- After a verification with these faults the slot is written, and where the PIN was
reported as correct a verification without faults reports it so again. -/
def Survives (m : PinManager) (serves : Serves uid) (pin : Pin) (t : Tpm)
    (faults : List (Option Fault)) : Prop :=
  let out := exec Tpm.exec.flaky (m.verifyPin uid pin) ⟨t, faults⟩
  (∃ a c tag, out.2.state.Shows serves ⟨.written a c, tag⟩) ∧
    ∀ data, out.1 = .ok (.success data) →
      ∃ data', (exec Tpm.exec (m.verifyPin uid pin) out.2.state).1 = .ok (.success data')

theorem survives_iff {faults : List (Option Fault)} {r : PinResult VerificationResult} {acc' : Account}
    (result : (exec Tpm.exec.flaky (m.verifyPin uid pin) ⟨t.put serves acc, faults⟩).1 = r)
    (state : (exec Tpm.exec.flaky (m.verifyPin uid pin) ⟨t.put serves acc, faults⟩).2.state =
      t.put serves acc') :
    Survives m serves pin (t.put serves acc) faults ↔ acc'.Endures pin r := by
  unfold Survives Account.Endures
  dsimp only
  rw [result, state]
  refine and_congr ⟨?_, ?_⟩ (forall₂_congr fun data _ => ?_)
  · rintro ⟨a, c, tag, shows_⟩
    exact ⟨a, c, congrArg Account.slot (Tpm.put_shows.unique shows_)⟩
  · rintro ⟨a, c, slot⟩
    obtain ⟨_, tag⟩ := acc'
    subst slot
    exact ⟨a, c, tag, Tpm.put_shows⟩
  · rw [exec_verifyPin]
    constructor
    · rintro ⟨data', success⟩
      obtain ⟨c, accepts, -⟩ := verifyPin_success_iff.1 success
      exact ⟨c, accepts⟩
    · rintro ⟨c, accepts⟩
      exact ⟨_, accepts.success⟩

theorem survives_nil_iff : Survives m serves pin (t.put serves acc) [] ↔
    (acc.verifyPin uid pin m.policy.maxAttempts).2.Endures pin
      (acc.verifyPin uid pin m.policy.maxAttempts).1 := by
  have run : exec Tpm.exec.flaky (m.verifyPin uid pin) ⟨t.put serves acc, []⟩ =
      ((acc.verifyPin uid pin m.policy.maxAttempts).1,
        ⟨t.put serves (acc.verifyPin uid pin m.policy.maxAttempts).2, []⟩) := by
    have same : exec Tpm.exec (m.verifyPin uid pin) (t.put serves acc) = _ := exec_verifyPin
    have nil := @Prog.run_flaky_nil _ _ _ _ _ _ Tpm.exec (m.verifyPin uid pin).run (t.put serves acc)
    rw [show Prog.run Tpm.exec (m.verifyPin uid pin).run (t.put serves acc) = _ from same] at nil
    exact nil
  exact survives_iff (congrArg Prod.fst run) (congrArg (Flaky.state ∘ Prod.snd) run)

/-- The branch, with no failing command: the new slot must be taken, and be one that
accepts. -/
theorem respelled_endures_iff (respelled : Respelled pin acc) :
    (acc.verifyPin uid pin limit).2.Endures pin (acc.verifyPin uid pin limit).1 ↔
      Account.refusal (asBytes pin.str) .absent = none ∧ 0 < limit.toNat ∧ limit.toNat < 2 ^ 31 := by
  obtain ⟨legacy, spelled, c, ⟨current, -, -⟩ | ⟨-, opens, short⟩⟩ := respelled
  · rw [legacy] at current
    cases current
  have present : SlotState.written pin.legacyAuth (c.after true) ≠ .absent := by simp
  rw [verifyPin_legacy legacy opens short, migrate_respelled spelled present]
  simp only [Account.setupPin, SlotState.data, Option.isSome_none, Bool.false_eq_true, if_false]
  cases fresh : Account.refusal (asBytes pin.str) .absent with
  | some err =>
    constructor
    · rintro ⟨⟨_, _, ⟨⟩⟩, -⟩
    · rintro ⟨⟨⟩, -⟩
  | none =>
    constructor
    · rintro ⟨-, again⟩
      obtain ⟨c', ⟨-, opens', -⟩ | ⟨no, -, -⟩⟩ := again _ rfl
      · have same := (SlotState.written.inj opens'.written).2
        subst same
        exact ⟨rfl, PinCounters.limit_pos opens'.unlocked, opens'.low⟩
      · cases no
    · rintro ⟨-, positive, low⟩
      have opens' := (fresh_opens_iff (a := pin.auth)).2 ⟨positive, low⟩
      exact ⟨⟨_, _, rfl⟩, fun _ _ => ⟨⟨0, limit⟩, .current rfl opens' (refusal_eq_none.1 fresh).1⟩⟩

/-- A verification survives every choice of failing commands exactly when it does not
re-spell a legacy slot; if no command fails it survives there too, provided the TPM
takes the new slot and the policy gives it a limit from 1 to `2 ^ 31 - 1`. -/
theorem verifyPin_survives_iff (shows_ : t.Shows serves acc) (slot : acc.slot = .written a c) :
    ((∀ faults, Survives m serves pin t faults) ↔ ¬ Respelled pin acc) ∧
      (Survives m serves pin t [] ↔
        ¬ (Respelled pin acc ∧ ¬ (Account.refusal (asBytes pin.str) .absent = none ∧
          0 < m.policy.maxAttempts.toNat ∧ m.policy.maxAttempts.toNat < 2 ^ 31))) := by
  rw [← shows_.eq_put]
  have off : ¬ Respelled pin acc → ∀ faults, Survives m serves pin (t.put serves acc) faults := by
    intro keeps faults
    have ends := @endures_of_not_respelled uid serves t acc pin m a c keeps slot
    obtain ⟨acc', state, endures⟩ := @flaky_of_wpx _ _ _ _ _ _ _ _ _ _ _ _ faults ends
    exact (survives_iff rfl state).2 endures
  refine ⟨⟨fun all respelled => ?_, off⟩, ⟨fun one both => ?_, fun safe => ?_⟩⟩
  · obtain ⟨faults, data, tag, run⟩ := @respelled_destroys uid serves t acc pin m respelled ⟨0⟩
    obtain ⟨⟨_, _, gone⟩, -⟩ :=
      (survives_iff (congrArg Prod.fst run) (congrArg (Flaky.state ∘ Prod.snd) run)).1 (all faults)
    cases gone
  · exact both.2 ((respelled_endures_iff both.1).1 (survives_nil_iff.1 one))
  · by_cases respelled : Respelled pin acc
    · refine survives_nil_iff.2 ((respelled_endures_iff respelled).2 ?_)
      by_contra unfit
      exact safe ⟨respelled, unfit⟩
    · exact off respelled []

/-- A PIN under the current format survives its verification, here with a fault in the
comparison. -/
theorem verifyPin_survives_plain : Survives defaultManager serves_thousand plainPin
    (Tpm.empty.put serves_thousand ⟨.written plainPin.auth ⟨0, 3⟩, .version 2⟩)
    [none, none, none, none, none, none, some ⟨1⟩] := by
  apply (verifyPin_survives_iff Tpm.put_shows rfl).1.2
  rintro ⟨legacy, -⟩
  cases legacy

/-- The law as it was meant fails: the legacy slot of a PIN with leading zeros does not
survive that PIN when the flush after it is undefined fails. -/
theorem verifyPin_destroys_legacy : ¬ ∀ (uid : UInt32) (serves : Serves uid) (m : PinManager)
    (pin : Pin) (t : Tpm) (a : Auth) (c : PinCounters) (tag : TagState)
    (faults : List (Option Fault)), Pin.new pin.str m.policy = .ok pin →
      t.Shows serves ⟨.written a c, tag⟩ → Survives m serves pin t faults := by
  intro claim
  have serves : Serves 1000 := by decide
  have respelled : Respelled chosenPin ⟨.written chosenPin.legacyAuth ⟨0, 3⟩, .absent⟩ :=
    ⟨rfl, by decide +kernel, ⟨0, 3⟩, .legacy rfl ⟨rfl, by decide, by decide⟩ (by decide +kernel)⟩
  have accepted : Pin.new chosenPin.str defaultManager.policy = .ok chosenPin :=
    Pin.new_eq_ok.2 ⟨by decide +kernel, by decide +kernel⟩
  obtain ⟨faults, data, tag, run⟩ :=
    @respelled_destroys 1000 serves Tpm.empty _ _ defaultManager respelled ⟨0⟩
  obtain ⟨⟨a, c, tag', shows_⟩, -⟩ :=
    claim 1000 serves defaultManager chosenPin _ _ _ _ faults accepted Tpm.put_shows
  rw [run] at shows_
  cases shows_.unique Tpm.put_shows

end Survival

end Pinpam
