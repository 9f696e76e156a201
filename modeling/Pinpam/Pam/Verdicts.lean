import Pinpam.Core.Lockout
import Pinpam.Pam.Framing
import Pinpam.Pam.LockTests
import Pinpam.Util.Reports

/-!
# The verdict of a test

What the module makes of the report of `pinutil -m test`, against what there was to test
and what the TPM made of the PIN. The two agree on every slot that holds a PIN; where it
has none, the helper reports an error of its own that the module does not know.
-/

namespace Pinpam
set_option autoImplicit false
open Pinpam.Effect Pinpam.Effect.Fallible

/-- A test by the helper with this text on its input. -/
def helperTest (ops : KeyOps) (env : Env) (keys : KeyStore) (username text : Str) (t : Tpm) :
    Output × Tpm :=
  let out := exec (process ops) (Util.main env (.test (some username))) (t, .piped text keys)
  (⟨exitStatus out.1, out.2.2.console.printed.head?⟩, out.2.1)

/-- A session with a helper that never fails, and a user who answers every prompt with
this text. -/
def Pam.onHost (ops : KeyOps) (env : Env) (keys : KeyStore) (typed : Str) : Handler PamCmd Tpm
  | .sendMessage .., t => (.ok (), t)
  | .converse _, t => (.ok (.text typed), t)
  | .pinutilStatus username, t => (.ok (statusOutput ops env username t keys), t)
  | .pinutilTest username text, t => (.ok (helperTest ops env keys username text t).1,
    (helperTest ops env keys username text t).2)

/-- An attempt on a PIN that is there: the helper may make it, its policy takes the PIN, and
it knows the format of the slot. -/
structure Account.Attempted (env : Env) (uid : UInt32) (pin : Pin) (acc : Account) (a : Auth)
    (c : PinCounters) : Prop where
  may : env.canAttemptPin uid = true
  slot : acc.slot = .written a c
  unlocked : ¬ c.locked
  valid : env.policy.validate pin.str = .ok ()
  known : acc.tag.Known

/-- What a test of the PIN is to be called. -/
inductive Account.Classed (env : Env) (uid : UInt32) (pin : Pin) (acc : Account) :
    PinutilTestOutcome → Prop where
  | denied (no : env.canAttemptPin uid = false) : Classed env uid pin acc .unavailable
  | missing (may : env.canAttemptPin uid = true) (unset : acc.slot.data = none) :
      Classed env uid pin acc .notConfigured
  | locked {a : Auth} {c : PinCounters} (may : env.canAttemptPin uid = true)
      (slot : acc.slot = .written a c) (locked : c.locked) :
      Classed env uid pin acc .lockedOut
  | refused {a : Auth} {c : PinCounters} (may : env.canAttemptPin uid = true)
      (slot : acc.slot = .written a c) (unlocked : ¬ c.locked)
      (unfit : ¬ (env.policy.validate pin.str = .ok () ∧ acc.tag.Known)) :
      Classed env uid pin acc .unavailable
  | accepted {a : Auth} {c : PinCounters} (attempt : acc.Attempted env uid pin a c)
      (hit : Auth.ofBytes (acc.reads pin) = a) :
      Classed env uid pin acc .success
  | last {a : Auth} {c : PinCounters} (attempt : acc.Attempted env uid pin a c)
      (miss : Auth.ofBytes (acc.reads pin) ≠ a) (reached : c.pinCount + 1 = c.pinLimit) :
      Classed env uid pin acc .newlyLockedOut
  | wrong {a : Auth} {c : PinCounters} (attempt : acc.Attempted env uid pin a c)
      (miss : Auth.ofBytes (acc.reads pin) ≠ a) (more : c.pinCount + 1 ≠ c.pinLimit) :
      Classed env uid pin acc .invalidPin

section Classes

variable {env : Env} {uid : UInt32} {pin : Pin} {acc : Account} {o o' : PinutilTestOutcome}
  {a a' : Auth} {c c' : PinCounters}

/-- A slot is one state. -/
theorem slot_unique (slot : acc.slot = .written a c) (slot' : acc.slot = .written a' c') :
    a' = a ∧ c' = c := by
  rw [slot] at slot'
  cases slot'
  exact ⟨rfl, rfl⟩

/-- The class of a slot that holds a PIN. -/
theorem Account.Classed.written (may : env.canAttemptPin uid = true) (slot : acc.slot = .written a c)
    (classed : acc.Classed env uid pin o) : (c.locked → o = .lockedOut) ∧
      (¬ c.locked → ¬ (env.policy.validate pin.str = .ok () ∧ acc.tag.Known) → o = .unavailable) ∧
      (acc.Attempted env uid pin a c → o = if Auth.ofBytes (acc.reads pin) = a then .success
        else if c.pinCount + 1 = c.pinLimit then .newlyLockedOut else .invalidPin) := by
  cases classed with
  | denied no =>
    rw [may] at no
    cases no
  | missing _ unset =>
    rw [slot] at unset
    cases unset
  | locked _ slot' locked =>
    obtain ⟨rfl, rfl⟩ := slot_unique slot slot'
    exact ⟨fun _ => rfl,
      fun unlocked => absurd locked unlocked, fun attempt => absurd locked attempt.unlocked⟩
  | refused _ slot' unlocked unfit =>
    obtain ⟨rfl, rfl⟩ := slot_unique slot slot'
    exact ⟨fun locked => absurd locked unlocked,
      fun _ _ => rfl, fun attempt => absurd ⟨attempt.valid, attempt.known⟩ unfit⟩
  | accepted attempt hit =>
    obtain ⟨rfl, rfl⟩ := slot_unique slot attempt.slot
    refine ⟨fun locked => absurd locked attempt.unlocked,
      fun _ unfit => absurd ⟨attempt.valid, attempt.known⟩ unfit, fun _ => ?_⟩
    rw [if_pos hit]
  | last attempt miss reached =>
    obtain ⟨rfl, rfl⟩ := slot_unique slot attempt.slot
    refine ⟨fun locked => absurd locked attempt.unlocked,
      fun _ unfit => absurd ⟨attempt.valid, attempt.known⟩ unfit, fun _ => ?_⟩
    rw [if_neg miss, if_pos reached]
  | wrong attempt miss more =>
    obtain ⟨rfl, rfl⟩ := slot_unique slot attempt.slot
    refine ⟨fun locked => absurd locked attempt.unlocked,
      fun _ unfit => absurd ⟨attempt.valid, attempt.known⟩ unfit, fun _ => ?_⟩
    rw [if_neg miss, if_neg more]

/-- There is one class for each test. -/
theorem Account.Classed.unique (classed : acc.Classed env uid pin o)
    (classed' : acc.Classed env uid pin o') : o' = o := by
  cases classed with
  | denied no =>
    cases classed' with
    | denied _ => rfl
    | refused may _ _ _ => rfl
    | missing may _ => exact nomatch no.symm.trans may
    | locked may _ _ => exact nomatch no.symm.trans may
    | accepted attempt _ => exact nomatch no.symm.trans attempt.may
    | last attempt _ _ => exact nomatch no.symm.trans attempt.may
    | wrong attempt _ _ => exact nomatch no.symm.trans attempt.may
  | missing may unset =>
    have other : ∀ {a c}, acc.slot ≠ .written a c := by
      rintro a c slot
      rw [slot] at unset
      cases unset
    cases classed' with
    | denied no => exact nomatch no.symm.trans may
    | missing _ _ => rfl
    | locked _ slot _ => exact absurd slot other
    | refused _ slot _ _ => exact absurd slot other
    | accepted attempt _ => exact absurd attempt.slot other
    | last attempt _ _ => exact absurd attempt.slot other
    | wrong attempt _ _ => exact absurd attempt.slot other
  | locked may slot locked => exact (classed'.written may slot).1 locked
  | refused may slot unlocked unfit => exact (classed'.written may slot).2.1 unlocked unfit
  | accepted attempt hit =>
    exact ((classed'.written attempt.may attempt.slot).2.2 attempt).trans (if_pos hit)
  | last attempt miss reached =>
    rw [(classed'.written attempt.may attempt.slot).2.2 attempt, if_neg miss, if_pos reached]
  | wrong attempt miss more =>
    rw [(classed'.written attempt.may attempt.slot).2.2 attempt, if_neg miss, if_neg more]

end Classes

section Tests

variable {ops : KeyOps} {env : Env} {keys : KeyStore} {uid : UInt32} {serves : Serves uid}
  {username typed : Str} {pin : Pin} {t : Tpm} {acc : Account} {a : Auth} {c : PinCounters}
  {s : Stdin} {limit : UInt32}

theorem reads_short (short : (asBytes pin.str).length ≤ authMaxSize) :
    (acc.reads pin).length ≤ authMaxSize := by
  unfold Account.reads normalizeLegacyPin
  split
  · dsimp only
    split
    · decide
    · obtain ⟨zeros, split⟩ := List.dropWhile_suffix (· == '0') (l := pin.str)
      rw [← split, asBytes_append, List.length_append] at short
      omega
  · exact short

/-- What the helper prints of a test is read back by the module. -/
theorem runPinutilTest_report (machine : env.machine = true)
    (resolved : env.uidOf username = some uid) :
    exec (Pam.onHost ops env keys typed) (Pam.runPinutilTest username pin) (t.put serves acc) =
      (.ok (.ok (.ofReport (Machine.testPin env uid acc (.piped (pin.str ++ ['\n']) keys)).1)),
        t.put serves (Machine.testPin env uid acc (.piped (pin.str ++ ['\n']) keys)).2.1) := by
  have found : env.getUidFromUsername username = .ok uid := by rw [Env.getUidFromUsername, resolved]
  have run := @run_on_account ops env (some username) username uid serves t acc
    ((readLines (pin.str ++ ['\n'])).map .ok) keys .test machine rfl found
  have silent := @onAccount_printed (.piped (pin.str ++ ['\n']) keys) env uid acc .test
  have tested : helperTest ops env keys username (pin.str ++ ['\n']) (t.put serves acc) =
      (⟨exitStatus (reportExit (Machine.testPin env uid acc (.piped (pin.str ++ ['\n']) keys)).1),
        some (toJson (Machine.testPin env uid acc (.piped (pin.str ++ ['\n']) keys)).1)⟩,
        t.put serves (Machine.testPin env uid acc (.piped (pin.str ++ ['\n']) keys)).2.1) := by
    unfold helperTest
    unfold UserCommand.run at run
    rw [show Util.main env (.test (some username)) =
      Util.main env (UserCommand.test.named (some username)) from rfl]
    unfold Stdin.piped at silent ⊢
    rw [run]
    simp only [Console.prints_printed, silent]
    rfl
  show (Except.ok
    (pinutilTest (.ok (helperTest ops env keys username (pin.str ++ ['\n']) (t.put serves acc)).1)),
    (helperTest ops env keys username (pin.str ++ ['\n']) (t.put serves acc)).2) = _
  rw [tested, pinutilTest_report]

/-- An error of the policy or of the manager is not one that the module knows. -/
theorem new_unavailable {line : Str} {policy : PinPolicy} {e : PinError}
    (invalid : Pin.new line policy = .error e) :
    PinutilTestOutcome.ofReport (.error e) = .unavailable := by
  have failed : policy.validate (trim line) = .error e := by
    unfold Pin.new at invalid
    split at invalid <;> cases invalid
    assumption
  simp only [PinPolicy.validate] at failed
  repeat' split at failed
  all_goals cases failed
  all_goals rfl

/-- What a locked slot gives where it was not seen to be locked. -/
theorem locked_unavailable (slot : acc.slot = .written a c) (locked : c.locked) :
    ∃ text, (acc.verifyPin uid pin limit).1 = .error (.tpmError text) := by
  have compares : ∀ bytes, ∃ err left, acc.verifyPinExact uid bytes = (.error (.ofTss err), left) := by
    intro bytes
    unfold Account.verifyPinExact
    split
    · exact ⟨_, _, rfl⟩
    · simp only [slot, SlotState.verdict, if_pos locked]
      exact ⟨_, _, rfl⟩
  unfold Account.verifyPin
  cases acc.tag.read with
  | some version =>
    dsimp only
    split
    · exact ⟨_, rfl⟩
    · obtain ⟨err, left, failed⟩ := compares (asBytes pin.str)
      rw [failed]
      exact ⟨_, rfl⟩
  | none =>
    obtain ⟨err, left, failed⟩ := compares (asBytes (normalizeLegacyPin pin.str))
    dsimp only
    rw [failed]
    exact ⟨_, rfl⟩

/-- The helper reads the PIN that it was given, if its policy takes it. -/
theorem piped_promptPin (single : '\n' ∉ pin.str) :
    (Stdin.promptPin env.policy (.piped (pin.str ++ ['\n']) keys)).1 =
    Pin.new (pin.str ++ ['\n']) env.policy := by
  unfold Stdin.promptPin Stdin.readLine Stdin.piped
  rw [readLines_line single]
  rfl

/-- The report on a slot that holds a PIN is that of its class. -/
theorem test_classed (may : env.canAttemptPin uid = true) (slot : acc.slot = .written a c)
    (count : c.pinCount.toNat < 2 ^ 31) (positive : 0 < c.pinLimit.toNat)
    (low : c.pinLimit.toNat < 2 ^ 31) (short : (asBytes pin.str).length ≤ authMaxSize)
    (single : '\n' ∉ pin.str) :
    acc.Classed env uid pin
      (.ofReport (Machine.testPin env uid acc (.piped (pin.str ++ ['\n']) keys)).1) := by
  have prompt := @piped_promptPin env keys pin single
  unfold Machine.testPin
  rw [if_neg (not_not.2 may), slot]
  dsimp only [SlotState.data, Option.map]
  by_cases locked : c.locked
  · rw [info_locked count positive low, decide_eq_true locked]
    exact .locked may slot locked
  rw [info_unlocked locked]
  simp only [Bool.false_eq_true, if_false]
  rcases entered : Stdin.promptPin env.policy (.piped (pin.str ++ ['\n']) keys) with ⟨r, s⟩
  rw [entered] at prompt
  dsimp only at prompt
  subst prompt
  cases made : Pin.new (pin.str ++ ['\n']) env.policy with
  | error e =>
    dsimp only
    rw [new_unavailable made]
    refine .refused may slot locked fun fit => ?_
    have taken := (Pin.new_trim trim_newline).2
        (Pin.new_eq_ok.2 ⟨pin.normalized.symm ▸ fit.1, pin.normalized.symm⟩)
    cases made.symm.trans taken
  | ok read =>
    dsimp only
    obtain ⟨valid, text⟩ := Pin.new_eq_ok.1 ((Pin.new_trim trim_newline).1 made)
    rw [pin.normalized] at valid text
    obtain rfl : read = pin := by
      cases read
      cases pin
      cases text
      rfl
    by_cases known : acc.tag.Known
    · have attempt : acc.Attempted env uid read a c := ⟨may, slot, locked, valid, known⟩
      have fits := @reads_short read acc short
      by_cases hit : Auth.ofBytes (acc.reads read) = a
      · have accepts : acc.Accepts read c := (accepts_iff known).2 ⟨⟨hit ▸ slot, locked, low⟩, fits⟩
        have success := @Account.Accepts.success uid env.policy.maxAttempts acc read c accepts
        rcases verified : acc.verifyPin uid read env.policy.maxAttempts with ⟨v, acc'⟩
        rw [verified] at success
        cases success
        exact .accepted attempt hit
      · have wrong : ¬ ∃ c', acc.Accepts read c' := by
          rintro ⟨c', accepts⟩
          have opens := ((accepts_iff known).1 accepts).1
          exact hit (slot_unique slot opens.written).1
        have sound : acc.Sound := by
          refine ⟨known, fun a' c' slot' => ?_⟩
          obtain ⟨-, rfl⟩ := slot_unique slot slot'
          exact low
        rw [verifyPin_miss sound slot locked wrong fits]
        dsimp only
        by_cases reached : (c.after false).locked
        · rw [decide_eq_true reached]
          exact .last attempt hit ((last_attempt locked).1 reached)
        · rw [decide_eq_false reached]
          exact .wrong attempt hit fun last => reached ((last_attempt locked).2 last)
    · have unsupported :
          ∃ text, acc.verifyPin uid read env.policy.maxAttempts = (.error (.tpmError text), acc) := by
        unfold Account.verifyPin
        cases tag : acc.tag.read with
        | none => exact absurd (.inl tag) known
        | some version =>
          dsimp only
          rw [if_pos fun current => known (.inr (tag.trans (congrArg some current)))]
          exact ⟨_, rfl⟩
      obtain ⟨text, failed⟩ := unsupported
      rw [failed]
      exact .refused may slot locked fun fit => known fit.2

/-- A count with the sign bit is read as zero, which hides the lock from the helper. -/
theorem test_count_hidden (may : env.canAttemptPin uid = true) (slot : acc.slot = .written a c)
    (locked : c.locked) (count : 2 ^ 31 ≤ c.pinCount.toNat) (single : '\n' ∉ pin.str) :
    PinutilTestOutcome.ofReport (Machine.testPin env uid acc (.piped (pin.str ++ ['\n']) keys)).1 =
    .unavailable := by
  have negative : c.data.pinCount < 0 := by
    apply Int32.lt_iff_toInt_lt.2
    show c.pinCount.toBitVec.toInt < 0
    have signed := BitVec.toInt_eq_toNat_cond c.pinCount.toBitVec
    have bound := c.pinCount.toNat_lt
    have value : c.pinCount.toBitVec.toNat = c.pinCount.toNat := rfl
    rw [value, if_neg (by omega)] at signed
    omega
  have hidden : (AttemptInfo.fromPinData c.data).locked = false := by
    apply decide_eq_false
    rintro ⟨positive, reached⟩
    rw [show (AttemptInfo.fromPinData c.data).used = 0 from if_pos negative] at reached
    exact UInt32.not_le.2 positive reached
  have prompt := @piped_promptPin env keys pin single
  unfold Machine.testPin
  rw [if_neg (not_not.2 may), slot]
  dsimp only [SlotState.data, Option.map]
  rw [hidden]
  simp only [Bool.false_eq_true, if_false]
  rcases entered : Stdin.promptPin env.policy (.piped (pin.str ++ ['\n']) keys) with ⟨e | read, s⟩
  · rw [entered] at prompt
    exact new_unavailable prompt.symm
  · obtain ⟨text, failed⟩ := @locked_unavailable uid read acc a c env.policy.maxAttempts slot locked
    rcases verified : acc.verifyPin uid read env.policy.maxAttempts with ⟨v, acc'⟩
    rw [verified] at failed
    cases failed
    dsimp only
    rw [verified]
    rfl

theorem test_denied (no : env.canAttemptPin uid = false) :
    Machine.testPin env uid acc s = (.error .permissionDenied, acc, s) := by
  unfold Machine.testPin
  rw [no]
  rfl

/-- A missing PIN is reported with an error that the module does not know. -/
theorem test_missing (may : env.canAttemptPin uid = true) (unset : acc.slot.data = none) :
    Machine.testPin env uid acc s = (.error .noPinSet, acc, s) := by
  unfold Machine.testPin
  rw [if_neg (not_not.2 may), unset]
  rfl

/-- The module classifies every test as what it was exactly where the helper may not make
it, or the slot holds a PIN and its count has no sign bit. -/
theorem tests_classed_iff (machine : env.machine = true) (resolved : env.uidOf username = some uid)
    (shows_ : t.Shows serves acc)
    (limits : ∀ a c, acc.slot = .written a c → 0 < c.pinLimit.toNat ∧ c.pinLimit.toNat < 2 ^ 31)
    (short : (asBytes pin.str).length ≤ authMaxSize) (single : '\n' ∉ pin.str) :
    (∀ o, (exec (Pam.onHost ops env keys typed) (Pam.runPinutilTest username pin) t).1 =
        .ok (.ok o) ↔ acc.Classed env uid pin o) ↔
      (env.canAttemptPin uid = true → ∃ a c, acc.slot = .written a c ∧ c.pinCount.toNat < 2 ^ 31) := by
  rw [← shows_.eq_put, runPinutilTest_report machine resolved]
  have same : ∀ {r : PinResult Unit},
      (∀ o, (Except.ok (.ok (.ofReport r)) : Except PamReturnCode (Except Str PinutilTestOutcome)) =
          .ok (.ok o) ↔ acc.Classed env uid pin o) ↔ acc.Classed env uid pin (.ofReport r) := by
    intro r
    constructor
    · exact fun all => (all _).1 rfl
    · refine fun classed o => ⟨?_, fun classed' => by rw [classed.unique classed']⟩
      rintro ⟨⟩
      exact classed
  rw [same]
  constructor
  · intro classed may
    cases slot : acc.slot with
    | written a c =>
      refine ⟨a, c, rfl, ?_⟩
      by_contra count
      have locked : c.locked := by
        apply UInt32.le_iff_toNat_le.2
        have low := (limits a c slot).2
        omega
      rw [test_count_hidden may slot locked (Nat.not_lt.1 count) single] at classed
      cases (@Account.Classed.locked env uid pin acc a c may slot locked).unique classed
    | absent | unwritten =>
      have unset : acc.slot.data = none := by rw [slot]; rfl
      rw [test_missing may unset] at classed
      cases (@Account.Classed.missing env uid pin acc may unset).unique classed
  · intro holds
    by_cases may : env.canAttemptPin uid = true
    · obtain ⟨a, c, slot, count⟩ := holds may
      obtain ⟨positive, low⟩ := limits a c slot
      exact test_classed may slot count positive low short single
    · have no := Bool.eq_false_iff.2 may
      rw [test_denied no]
      exact .denied no

end Tests

/-! ## Samples -/

theorem tests_classed_once :
    (exec (Pam.onHost idleKeys sampleEnv ⟨none, none, none⟩ [])
      (Pam.runPinutilTest "alice".toList plainPin)
      (Tpm.empty.put serves_thousand lastAccount)).1 = .ok (.ok .success) := by
  have limits : ∀ a c, lastAccount.slot = .written a c → 0 < c.pinLimit.toNat ∧
      c.pinLimit.toNat < 2 ^ 31 := by
    rintro a c ⟨⟩
    decide
  have attempt : lastAccount.Attempted sampleEnv 1000 plainPin plainPin.auth ⟨2, 3⟩ :=
    ⟨rfl, rfl, by decide, by decide +kernel, .inr rfl⟩
  have holds : sampleEnv.canAttemptPin 1000 = true → ∃ a c, lastAccount.slot = .written a c ∧
      c.pinCount.toNat < 2 ^ 31 :=
    fun _ => ⟨_, _, rfl, by decide⟩
  exact ((tests_classed_iff rfl rfl Tpm.put_shows limits (by decide) (by decide)).2 holds .success).2
    (.accepted attempt rfl)

/-- A slot that was removed after the status query is unavailable to the module. -/
theorem tests_misclassed : ¬ ∀ (env : Env) (uid : UInt32) (serves : Serves uid) (username : Str)
    (pin : Pin) (t : Tpm) (acc : Account) (o : PinutilTestOutcome),
    env.machine = true → env.uidOf username = some uid → t.Shows serves acc →
      (∀ a c, acc.slot = .written a c → 0 < c.pinLimit.toNat ∧ c.pinLimit.toNat < 2 ^ 31 ∧
        c.pinCount ≤ c.pinLimit) →
        (asBytes pin.str).length ≤ authMaxSize → '\n' ∉ pin.str →
          ((exec (Pam.onHost idleKeys env ⟨none, none, none⟩ [])
              (Pam.runPinutilTest username pin) t).1 = .ok (.ok o) ↔
            acc.Classed env uid pin o) := by
  intro claim
  have told := (claim sampleEnv 1000 serves_thousand "alice".toList plainPin Tpm.empty
    ⟨.absent, .absent⟩ .notConfigured rfl rfl ⟨rfl, rfl⟩ nofun (by decide) (by decide)).2
    (.missing rfl rfl)
  exact absurd told (by decide +kernel)

end Pinpam
