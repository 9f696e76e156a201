import Pinpam.Pam.Outcome
import Pinpam.Util.Machine

/-!
# The tests of the lock

The TPM refuses the `authValue` of a slot once `pinCount >= pinLimit`, as unsigned words.
The manager compares the same words with a sign, pinutil their clamped forms, and the
PAM module what pinutil reports. They agree for the limits without a sign bit, except
for zero.
-/

namespace Pinpam
set_option autoImplicit false
open Pinpam.Effect Pinpam.Effect.Fallible

/-- The payloads of a slot that was set up with a limit: wrong and right attempts on it
while the TPM compares. -/
inductive PinCounters.Reachable (limit : UInt32) : PinCounters → Prop where
  | fresh : Reachable limit ⟨0, limit⟩
  | attempted {c : PinCounters} (hit : Bool) (unlocked : ¬ c.locked) (before : Reachable limit c) :
      Reachable limit (c.after hit)

/-- The status report of pinutil, as it is printed in machine mode. -/
def statusOutput (ops : KeyOps) (env : Env) (username : Str) (t : Tpm) (keys : KeyStore) : Output :=
  let out := exec (process ops) (Util.main env (.status (some username))) (t, ⟨[], .start keys⟩)
  ⟨exitStatus out.1, out.2.2.console.printed.head?⟩

/-- On the slot of the user with these counters all tests answer as the TPM does. -/
structure LockTestsAgree {uid : UInt32} (serves : Serves uid) (t : Tpm) (a : Auth) (tag : TagState)
    (c : PinCounters) : Prop where
  /-- the TPM refuses every value -/
  refused : ∀ b, (Tpm.exec (.nvRead (.index b) (slotHandle uid serves) PinData.SIZE 0)
    (t.put serves ⟨.written a c, tag⟩)).1 = refuse .authUnavailable ↔ c.locked
  isLockedOut : (exec Tpm.exec (isLockedOut uid) (t.put serves ⟨.written a c, tag⟩)).1 =
    .ok (decide c.locked)
  /-- the flags of a comparison are about the slot it leaves -/
  verifyPinExact : ∀ bytes v t',
    exec Tpm.exec (verifyPinExact uid bytes) (t.put serves ⟨.written a c, tag⟩) = (.ok v, t') →
      ∃ c', t' = t.put serves ⟨.written a c', tag⟩ ∧
        (v = .invalid (decide c'.locked) ∨ (v = .lockedOut ∧ c'.locked) ∨
          ∃ data, v = .success data ∧ ¬ c'.locked)
  info : ∀ slot,
    (exec Tpm.exec (getPinSlot uid) (t.put serves ⟨.written a c, tag⟩)).1 = .ok (some slot) →
      (AttemptInfo.fromPinData slot).locked = decide c.locked
  report : ∀ (ops : KeyOps) (env : Env) (username : Str) (keys : KeyStore), env.machine = true →
    env.uidOf username = some uid →
      (pinutilStatus (.ok (statusOutput ops env username (t.put serves ⟨.written a c, tag⟩) keys)) =
        .lockedOut ↔ c.locked)

section Lock

variable {uid : UInt32} {serves : Serves uid} {t : Tpm} {a : Auth} {tag : TagState}
  {c : PinCounters} {limit : UInt32}

theorem PinCounters.Reachable.bounded (reachable : PinCounters.Reachable limit c) :
    c.pinLimit = limit ∧ c.pinCount ≤ limit := by
  induction reachable with
  | fresh => exact ⟨rfl, UInt32.zero_le⟩
  | @attempted c hit unlocked before ih =>
    obtain ⟨same, low⟩ := ih
    refine ⟨same, ?_⟩
    cases hit with
    | true => exact UInt32.zero_le
    | false =>
      have below := UInt32.lt_iff_toNat_lt.1 (UInt32.not_le.1 unlocked)
      rw [same] at below
      have bound := limit.toNat_lt
      apply UInt32.le_iff_toNat_le.2
      show (c.pinCount + 1).toNat ≤ limit.toNat
      rw [UInt32.toNat_add, UInt32.toNat_one]
      omega

theorem exec_isLockedOut : exec Tpm.exec (isLockedOut uid) (t.put serves ⟨.written a c, tag⟩) =
    (.ok c.data.atLimit, t.put serves ⟨.written a c, tag⟩) := by
  apply exec_eq
  unfold isLockedOut
  rw [nvIndexForUid_eq serves]
  exact wpx_bind.2 ⟨trivial,
    wpx_bind.2 (wpx_readPinSlotOwner trivial ⟨trivial, rfl⟩ fun no => False.elim no)⟩

theorem exec_verifyPinExact {bytes : Bytes} {acc : Account} :
    exec Tpm.exec (verifyPinExact uid bytes) (t.put serves acc) =
    ((acc.verifyPinExact uid bytes).1, t.put serves (acc.verifyPinExact uid bytes).2) :=
  exec_eq (wpx_verifyPinExact trivial trivial rfl (fun _ _ no => False.elim no)
    fun _ no => False.elim no)

/-- The report of a written slot says what pinutil makes of its words. -/
theorem status_of_slot {ops : KeyOps} {env : Env} {username : Str} {keys : KeyStore}
    (machine : env.machine = true) (resolved : env.uidOf username = some uid) :
    pinutilStatus (.ok (statusOutput ops env username (t.put serves ⟨.written a c, tag⟩) keys)) =
      .ofReport (.ok (some (AttemptInfo.fromPinData c.data))) := by
  have found : env.getUidFromUsername username = .ok uid := by rw [Env.getUidFromUsername, resolved]
  have printed : statusOutput ops env username (t.put serves ⟨.written a c, tag⟩) keys =
      ⟨0, some (toJson (.ok (some (AttemptInfo.fromPinData c.data)) : PinResult
        (Option AttemptInfo)))⟩ := by
    unfold statusOutput
    have run : exec (process ops) (Util.main env (.status (some username)))
        (t.put serves ⟨.written a c, tag⟩, ⟨[], .start keys⟩) =
        exec (process ops) (Util.report env (Util.showStatus env username))
          (t.put serves ⟨.written a c, tag⟩, ⟨[], .start keys⟩) := rfl
    rw [run, exec_report machine, exec_showStatus machine found]
    rfl
  rw [printed, pinutilStatus_report]

/-- The flags agree below the sign bit. -/
theorem info_locked (count : c.pinCount.toNat < 2 ^ 31) (positive : 0 < c.pinLimit.toNat)
    (low : c.pinLimit.toNat < 2 ^ 31) :
    (AttemptInfo.fromPinData c.data).locked = decide c.locked := by
  have countInt : c.data.pinCount.toInt = c.pinCount.toNat := toInt_toInt32 count
  have limitInt : c.data.pinLimit.toInt = c.pinLimit.toNat := toInt_toInt32 low
  have nonneg : ¬ c.data.pinCount < 0 := by
    intro negative
    have below := Int32.lt_iff_toInt_lt.1 negative
    rw [countInt, Int32.toInt_zero] at below
    omega
  have above : ¬ c.data.pinLimit ≤ 0 := by
    intro small
    have below := Int32.le_iff_toInt_le.1 small
    rw [limitInt, Int32.toInt_zero] at below
    omega
  unfold AttemptInfo.locked PinCounters.locked
  apply decide_eq_decide.2
  simp only [AttemptInfo.fromPinData, if_neg nonneg, if_neg above]
  show 0 < c.pinLimit ∧ c.pinLimit ≤ c.pinCount ↔ c.pinLimit ≤ c.pinCount
  constructor
  · exact And.right
  · exact fun reached => ⟨UInt32.lt_iff_toNat_lt.2 positive, reached⟩

theorem lockTests_of_low (positive : 0 < c.pinLimit.toNat) (low : c.pinLimit.toNat < 2 ^ 31)
    (count : c.pinCount ≤ c.pinLimit) :
    LockTestsAgree serves t a tag c := by
  have countLe := UInt32.le_iff_toNat_le.1 count
  have info := info_locked (c := c) (by omega) positive low
  constructor
  · intro b
    rw [exec_nvRead_slot_index]
    dsimp only
    by_cases locked : c.locked
    · rw [if_pos locked]
      exact ⟨fun _ => locked, fun _ => rfl⟩
    · rw [if_neg locked]
      constructor
      · intro same
        split at same <;> cases same
      · exact fun no => absurd no locked
  · rw [exec_isLockedOut, PinCounters.atLimit_data (by omega) low]
  · intro bytes v t' run
    rw [exec_verifyPinExact] at run
    obtain ⟨answer, rfl⟩ := Prod.mk.inj run
    obtain ⟨c', left, limit⟩ := @exact_written uid ⟨.written a c, tag⟩ a c rfl bytes
    refine ⟨c', by rw [left], ?_⟩
    unfold Account.verifyPinExact at answer left
    split at answer
    · cases answer
    next short =>
      rw [if_neg short] at left
      have slot := congrArg Account.slot left
      dsimp only [SlotState.verdict] at answer slot
      by_cases locked : c.locked
      · rw [if_pos locked] at answer
        cases answer
      rw [if_neg locked] at answer
      by_cases hit : Auth.ofBytes bytes = a
      · subst hit
        rw [compared_hit locked] at slot
        obtain rfl := (SlotState.written.inj slot).2
        rw [if_pos rfl, atLimit_after_hit locked, decide_eq_false (by omega)] at answer
        cases answer
        refine .inr (.inr ⟨_, rfl, fun still => ?_⟩)
        have zero := UInt32.le_iff_toNat_le.1 still
        have same : (c.after true).pinLimit.toNat = c.pinLimit.toNat := rfl
        have reset : (c.after true).pinCount.toNat = 0 := rfl
        omega
      · rw [compared_miss locked hit] at slot
        obtain rfl := (SlotState.written.inj slot).2
        have below := UInt32.lt_iff_toNat_lt.1 (UInt32.not_le.1 locked)
        have next : (c.after false).pinCount.toNat = c.pinCount.toNat + 1 := by
          have bound := c.pinLimit.toNat_lt
          show (c.pinCount + 1).toNat = _
          rw [UInt32.toNat_add, UInt32.toNat_one]
          omega
        rw [if_neg hit, @PinCounters.atLimit_data (c.after false) (by rw [next]; omega) low] at answer
        cases answer
        exact .inl rfl
  · intro slot read
    rw [exec_getPinSlot] at read
    cases read
    exact info
  · intro ops env username keys machine resolved
    rw [status_of_slot machine resolved]
    unfold PinStatus.ofReport
    dsimp only
    rw [info]
    by_cases locked : c.locked
    · rw [decide_eq_true locked, if_pos rfl]
      exact ⟨fun _ => locked, fun _ => rfl⟩
    · rw [decide_eq_false locked]
      exact ⟨nofun, fun no => absurd no locked⟩

/-- A limit of zero locks the slot for the TPM, and not for pinutil. -/
theorem lockTests_zero : ¬ LockTestsAgree serves t a tag ⟨0, 0⟩ := by
  intro agree
  have info := agree.info _ (congrArg Prod.fst exec_getPinSlot)
  exact absurd info (by decide)

/-- A limit with the sign bit locks the slot for the manager, and not for the TPM. -/
theorem lockTests_signed (high : 2 ^ 31 ≤ limit.toNat) :
    ¬ LockTestsAgree serves t a tag ⟨0, limit⟩ := by
  intro agree
  have unlocked : ¬ (⟨0, limit⟩ : PinCounters).locked := by
    intro locked
    have zero := UInt32.le_iff_toNat_le.1 locked
    dsimp only at zero
    rw [UInt32.toNat_zero] at zero
    omega
  have signed := atLimit_after_hit unlocked
  have told := agree.isLockedOut
  rw [exec_isLockedOut] at told
  have same : (⟨0, limit⟩ : PinCounters).after true = ⟨0, limit⟩ := rfl
  rw [same, decide_eq_true high] at signed
  rw [signed, decide_eq_false unlocked] at told
  cases told

/-- All tests of the lock agree on every payload that comes from a limit exactly for
the limits from 1 to `2 ^ 31 - 1`. -/
theorem lock_tests_agree_iff : (∀ c, PinCounters.Reachable limit c → LockTestsAgree serves t a tag c) ↔
    0 < limit.toNat ∧ limit.toNat < 2 ^ 31 := by
  constructor
  · intro agree
    have first := agree _ .fresh
    constructor
    · apply Nat.pos_of_ne_zero
      intro zero
      have same : limit = 0 := UInt32.toNat_inj.1 zero
      subst same
      exact lockTests_zero first
    · by_contra high
      exact lockTests_signed (Nat.not_lt.1 high) first
  · rintro ⟨positive, low⟩ c reachable
    obtain ⟨rfl, count⟩ := reachable.bounded
    exact lockTests_of_low positive low count

theorem lock_tests_agree_once :
    LockTestsAgree serves_thousand Tpm.empty plainPin.auth (.version PIN_VERSION_CURRENT) ⟨0, 3⟩ :=
  lock_tests_agree_iff.2 ⟨by decide, by decide⟩ _ .fresh

/-- The agreement as it was meant fails: a policy may carry the limit zero. -/
theorem lock_tests_disagree : ¬ ∀ (limit : UInt32) (c : PinCounters), PinCounters.Reachable limit c →
    LockTestsAgree serves_thousand Tpm.empty plainPin.auth (.version PIN_VERSION_CURRENT) c := by
  intro agree
  exact lockTests_zero (agree 0 ⟨0, 0⟩ .fresh)

end Lock

end Pinpam
