import Pinpam.Core.Lifecycle
import Pinpam.Pam.Verdicts

/-!
# The entries of an existing PIN

The commands that check a PIN and the prompt of the module take it through the gate of a
new one: `Pin.new` under the policy of the day. A PIN that stands in the TPM is shut out
where that policy would not take it any more.
-/

namespace Pinpam
set_option autoImplicit false
open Pinpam.Effect Pinpam.Effect.Fallible

/-- Where a user enters a PIN that exists. -/
inductive Entry where
  | test | change | delete
  /-- the prompt of the module -/
  | prompt

/-- Who is asked for the PIN there. -/
def Entry.Open (env : Env) (uid : UInt32) : Entry → Prop
  | .test => env.canAttemptPin uid = true
  | .change | .delete => env.uid = uid ∧ uid ≠ 0
  | .prompt => env.machine = true ∧ env.canAttemptPin uid = true

section Success

variable (ops : KeyOps) (env : Env) (keys : KeyStore) (username text line : Str) (t : Tpm)

/-- The PIN is verified: the test ends well and resets the count, the change goes on to the
new PIN, for which there is no line, the deletion removes the slot, and the module is told
of a success. -/
def Entry.Succeeds {uid : UInt32} (serves : Serves uid) : Entry → Prop
  | .test => (exec (process ops) (Util.testPin env username) (t, ⟨[.ok line], .start keys⟩)).1 =
        .ok () ∧
      ∃ a limit tag,
        (exec (process ops) (Util.testPin env username) (t, ⟨[.ok line], .start keys⟩)).2.1.Shows serves
          ⟨.written a ⟨0, limit⟩, tag⟩
  | .change => (exec (process ops) (Util.changePin env username)
      (t, ⟨[.ok line], .start keys⟩)).2.2.console.typed = [line, []]
  | .delete => (exec (process ops) (Util.deletePin env username)
      (t, ⟨[.ok line], .start keys⟩)).2.1.nv (slotHandle uid serves) = none
  | .prompt => ∀ used limit, used < limit → (exec (Pam.onHost ops env keys text) (do
      let pin ← Pam.promptForPin env.policy used limit
      Pam.runPinutilTest username pin) t).1 = .ok (.ok .success)

end Success

/-- A PIN that was set up from this text under the policy, on a slot that is not locked: its
verification under the policy is a success. -/
structure Standing {uid : UInt32} (serves : Serves uid) (policy : PinPolicy) (text : Str)
    (pin : Pin) (c : PinCounters) (t : Tpm) : Prop where
  made : Pin.new text policy = .ok pin
  shows_ : t.Shows serves ⟨.written pin.auth c, .version PIN_VERSION_CURRENT⟩
  verifies : ∃ data,
    (exec Tpm.exec (PinManager.verifyPin ⟨policy, policy.tctiSpec⟩ uid pin) t).1 = .ok (.success data)

section Entries

variable {ops : KeyOps} {env : Env} {keys : KeyStore} {uid : UInt32} {serves : Serves uid}
  {username text line : Str} {pin : Pin} {t : Tpm} {policy : PinPolicy} {c : PinCounters}
  {limit : UInt32} {s : Stdin} {u : Console} {e : PinError}

/-- What a verification that succeeds says of the slot, whatever the policy. -/
theorem Standing.verified (standing : Standing serves policy text pin c t) :
    ¬ c.locked ∧ c.pinLimit.toNat < 2 ^ 31 ∧ (asBytes pin.str).length ≤ authMaxSize ∧
      ∀ limit, Account.verifyPin uid pin limit
          ⟨.written pin.auth c, .version PIN_VERSION_CURRENT⟩ =
        (.ok (.success (c.after true).data),
          ⟨.written pin.auth (c.after true), .version PIN_VERSION_CURRENT⟩) := by
  obtain ⟨made, shows_, data, success⟩ := standing
  rw [← shows_.eq_put, exec_verifyPin] at success
  obtain ⟨c', ⟨-, opens, short⟩ | ⟨legacy, -, -⟩, -⟩ := verifyPin_success_iff.1 success
  · obtain ⟨written, unlocked, low⟩ := opens
    cases written
    refine ⟨unlocked, low, short, fun limit => ?_⟩
    rw [verifyPin_current rfl]
    exact SlotState.Opens.exact ⟨rfl, unlocked, low⟩ short
  · cases legacy

/-- What a policy makes of the text: the PIN itself, or an error. -/
theorem Standing.entered (standing : Standing serves policy text pin c t) (typed : TypedAs text line) :
    (env.policy.validate pin.str = .ok () ∧ Pin.new line env.policy = .ok pin) ∨
      (env.policy.validate pin.str ≠ .ok () ∧ ∃ e, Pin.new line env.policy = .error e) := by
  have str : pin.str = trim line := (Pin.new_eq_ok.1 standing.made).2.trans typed.trim_eq.symm
  by_cases valid : env.policy.validate pin.str = .ok ()
  · exact .inl ⟨valid, Pin.new_eq_ok.2 ⟨str ▸ valid, str⟩⟩
  · refine .inr ⟨valid, ?_⟩
    cases made : Pin.new line env.policy with
    | error e => exact ⟨e, rfl⟩
    | ok read => exact absurd (str ▸ (Pin.new_eq_ok.1 made).1) valid

/-- The account of a PIN that stands. -/
abbrev standingAccount (pin : Pin) (c : PinCounters) : Account :=
  ⟨.written pin.auth c, .version PIN_VERSION_CURRENT⟩

/-- The prompt of an entry, on a line. -/
theorem exec_prompt {prompt : Text} {attempts : Option (UInt32 × UInt32)} :
    exec (process ops) (Util.promptPin env prompt attempts) (t, ⟨[.ok line], u⟩) =
      (Pin.new line env.policy, t, ⟨[], u.types [line]⟩) := exec_promptPin

theorem test_entry (standing : Standing serves policy text pin c t) (typed : TypedAs text line)
    (open_ : Entry.test.Open env uid) (resolved : env.getUidFromUsername username = .ok uid) :
    Entry.test.Succeeds ops env keys username text line t serves ↔
    env.policy.validate pin.str = .ok () := by
  obtain ⟨unlocked, -, -, verified⟩ := standing.verified
  have may : env.canAttemptPin uid = true := open_
  unfold Entry.Succeeds Util.testPin
  dsimp only
  rw [← standing.shows_.eq_put, resolved, ofResult_ok_bind, if_neg (not_not.2 may),
    exec_bind, exec_newManager]
  dsimp only
  rw [exec_bind, exec_getAttemptInfo]
  dsimp only [SlotState.data, Option.map]
  rw [info_unlocked unlocked]
  simp only [Bool.false_eq_true, if_false]
  rw [exec_bind, exec_prompt]
  obtain ⟨valid, made⟩ | ⟨invalid, e, made⟩ :=
    @Standing.entered env uid serves text line pin t policy c standing typed
  · rw [made]
    dsimp only
    rw [exec_bind, exec_manage, exec_verifyPin, verified]
    dsimp only
    have left := @Tpm.put_shows uid t serves ⟨.written pin.auth (c.after true),
        .version PIN_VERSION_CURRENT⟩
    refine ⟨fun _ => valid, fun _ => ?_⟩
    by_cases machine : env.machine = true
    · rw [if_pos machine]
      exact ⟨rfl, _, _, _, left⟩
    · rw [if_neg machine]
      exact ⟨rfl, _, _, _, left⟩
  · rw [made]
    refine ⟨fun succeeds => ?_, fun valid => absurd valid invalid⟩
    cases succeeds.1

theorem change_entry (standing : Standing serves policy text pin c t) (typed : TypedAs text line)
    (open_ : Entry.change.Open env uid) (resolved : env.getUidFromUsername username = .ok uid) :
    Entry.change.Succeeds ops env keys username text line t serves ↔
    env.policy.validate pin.str = .ok () := by
  obtain ⟨unlocked, -, -, verified⟩ := standing.verified
  obtain ⟨rfl, user⟩ := open_
  have own : env.canManagePin env.uid = true := by simp [Env.canManagePin]
  have restart :
      ∀ (m : PinManager) t (s : Stdin), exec (process ops) (manage m.restartContext) (t, s) =
      (.ok (), t, s) := fun _ _ _ => rfl
  unfold Entry.Succeeds Util.changePin
  dsimp only
  rw [← standing.shows_.eq_put, resolved, ofResult_ok_bind, if_neg (not_not.2 own),
    exec_bind, exec_newManager]
  dsimp only
  rw [exec_bind, exec_getAttemptInfo]
  dsimp only [SlotState.data, Option.map]
  rw [exec_bind, restart]
  dsimp only
  rw [if_pos user]
  unfold Util.changeOwnPin
  rw [info_unlocked unlocked]
  simp only [Bool.false_eq_true, if_false]
  rw [exec_bind, exec_prompt]
  obtain ⟨valid, made⟩ | ⟨invalid, e, made⟩ :=
    @Standing.entered env _ serves text line pin t policy c standing typed
  · rw [made]
    dsimp only
    rw [exec_bind, exec_manage, exec_verifyPin, verified]
    dsimp only
    rw [exec_bind, restart]
    dsimp only
    -- the new PIN is asked for, and there is no line for it
    have asked : ∀ u : Console, Stdin.confirmedPin env ⟨[], u⟩ =
        (.error .pinIsEmpty, ⟨[], u.types [[]]⟩) := fun _ => rfl
    rw [exec_bind, exec_confirmed, asked]
    exact ⟨fun _ => valid, fun _ => rfl⟩
  · rw [made]
    refine ⟨fun succeeds => ?_, fun valid => absurd valid invalid⟩
    exact absurd (congrArg List.length succeeds) (by simp [Console.types, Console.start])

theorem delete_entry (standing : Standing serves policy text pin c t) (typed : TypedAs text line)
    (open_ : Entry.delete.Open env uid) (resolved : env.getUidFromUsername username = .ok uid) :
    Entry.delete.Succeeds ops env keys username text line t serves ↔
    env.policy.validate pin.str = .ok () := by
  obtain ⟨unlocked, -, -, verified⟩ := standing.verified
  obtain ⟨rfl, user⟩ := open_
  unfold Entry.Succeeds Util.deletePin
  dsimp only
  rw [← standing.shows_.eq_put, resolved, ofResult_ok_bind,
    if_neg fun other => other.2 rfl, exec_bind, exec_newManager]
  dsimp only
  rw [exec_bind, exec_getAttemptInfo]
  dsimp only [SlotState.data, Option.map]
  rw [info_unlocked unlocked, if_neg (by simp), if_neg user]
  unfold Util.deleteOwnPin
  rw [exec_bind, exec_prompt]
  obtain ⟨valid, made⟩ | ⟨invalid, e, made⟩ :=
    @Standing.entered env _ serves text line pin t policy c standing typed
  · rw [made]
    dsimp only
    rw [exec_bind, exec_manage, exec_deletePinWithAuth]
    unfold Account.deletePinWithAuth
    rw [verified]
    dsimp only [Account.deletePinAdmin]
    rw [if_neg nofun]
    dsimp only [Except.map]
    rw [exec_human, put_slot]
    exact ⟨fun _ => valid, fun _ => rfl⟩
  · rw [made]
    refine ⟨fun succeeds => ?_, fun valid => absurd valid invalid⟩
    have gone := put_slot.symm.trans succeeds
    cases gone

theorem prompt_entry (standing : Standing serves policy text pin c t) (typed : TypedAs text line)
    (open_ : Entry.prompt.Open env uid) (resolved : env.uidOf username = some uid) :
    Entry.prompt.Succeeds ops env keys username text line t serves ↔
    env.policy.validate pin.str = .ok () := by
  obtain ⟨unlocked, low, short, verified⟩ := standing.verified
  obtain ⟨machine, may⟩ := open_
  have answers : ∀ prompt x, (Pam.onHost ops env keys text (.converse prompt) x).1 = .ok (.text text) :=
    fun _ _ => rfl
  have bare : TypedAs text text := ⟨typed.1, .inl rfl⟩
  obtain ⟨valid, made⟩ | ⟨invalid, e, made⟩ :=
    @Standing.entered env uid serves text text pin t policy c standing bare
  · refine ⟨fun _ => valid, fun _ used limit left => ?_⟩
    obtain ⟨prompt, entered⟩ := prompt_enters (x := t) answers left made
    rw [exec_bind, entered]
    dsimp only
    have same : (Pam.onHost ops env keys text (.converse prompt) t).2 =
        t.put serves (standingAccount pin c) := standing.shows_.eq_put.symm
    have below := UInt32.lt_iff_toNat_lt.1 (UInt32.not_le.1 unlocked)
    have single : '\n' ∉ pin.str := fun inside => typed.1 (mem_trim ((Pin.new_eq_ok.1 made).2 ▸ inside))
    have attempt : (standingAccount pin c).Attempted env uid pin pin.auth c :=
      ⟨may, rfl, unlocked, valid, .inr rfl⟩
    have classed := @test_classed env keys uid pin (standingAccount pin c) pin.auth c may rfl (by
      omega) (by omega) low short single
    rw [same, runPinutilTest_report machine resolved,
      (Account.Classed.accepted attempt rfl).unique classed]
  · refine ⟨fun succeeds => ?_, fun valid => absurd valid invalid⟩
    have refused : ∀ read, Pin.new text env.policy ≠ .ok read :=
      fun read taken => nomatch made.symm.trans taken
    obtain ⟨code, stopped⟩ :=
      @prompt_refuses env.policy Tpm (Pam.onHost ops env keys text) t 0 3 text answers refused
    have once := succeeds 0 3 (by decide)
    rw [exec_bind] at once
    rcases ended : exec (Pam.onHost ops env keys text) (Pam.promptForPin env.policy 0 3) t with ⟨r, t'⟩
    rw [ended] at stopped once
    cases stopped
    cases once

/-- A PIN that stands is verified at an entry exactly where the policy of the day would take
it as a new one. -/
theorem entry_succeeds_iff {entry : Entry} (standing : Standing serves policy text pin c t)
    (typed : TypedAs text line) (open_ : entry.Open env uid)
    (resolved : env.uidOf username = some uid) :
    entry.Succeeds ops env keys username text line t serves ↔ env.policy.validate pin.str = .ok () := by
  have found : env.getUidFromUsername username = .ok uid := by rw [Env.getUidFromUsername, resolved]
  cases entry with
  | test => exact test_entry standing typed open_ found
  | change => exact change_entry standing typed open_ found
  | delete => exact delete_entry standing typed open_ found
  | prompt => exact prompt_entry standing typed open_ resolved

end Entries

/-! ## Samples -/

/-- The PIN of user 1000 that was set up under the default policy. -/
theorem plainPin_standing :
    Standing serves_thousand .default "4242".toList plainPin ⟨0, 3⟩ plainTpm where
  made := by rfl
  shows_ := Tpm.put_shows
  verifies := by
    unfold plainTpm
    rw [exec_verifyPin]
    exact ⟨_, by rfl⟩

/-- The caller under an edited policy that still takes the PIN. -/
def editedEnv : Env :=
  { sampleEnv with policy :=
    { PinPolicy.default with minLength := 2, maxLength := some 16, maxAttempts := 7 } }

theorem entry_succeeds_once :
    Entry.test.Succeeds idleKeys editedEnv ⟨none, none, none⟩ "alice".toList "4242".toList
        "4242\n".toList plainTpm serves_thousand ∧
      Entry.change.Succeeds idleKeys editedEnv ⟨none, none, none⟩ "alice".toList "4242".toList
        "4242\n".toList plainTpm serves_thousand ∧
      Entry.delete.Succeeds idleKeys editedEnv ⟨none, none, none⟩ "alice".toList "4242".toList
        "4242\n".toList plainTpm serves_thousand ∧
      Entry.prompt.Succeeds idleKeys editedEnv ⟨none, none, none⟩ "alice".toList "4242".toList
        "4242\n".toList plainTpm serves_thousand := by
  have succeeds : ∀ entry : Entry, entry.Succeeds idleKeys editedEnv ⟨none, none, none⟩
      "alice".toList "4242".toList "4242\n".toList plainTpm serves_thousand := by
    intro entry
    have open_ : entry.Open editedEnv 1000 := by
      cases entry with
      | test => exact rfl
      | change => exact ⟨rfl, by decide⟩
      | delete => exact ⟨rfl, by decide⟩
      | prompt => exact ⟨rfl, rfl⟩
    exact (entry_succeeds_iff plainPin_standing ⟨by decide, .inr rfl⟩ open_ rfl).2
      (by decide +kernel)
  exact ⟨succeeds .test, succeeds .change, succeeds .delete, succeeds .prompt⟩

/-- A longer shortest length shuts the PIN out. -/
theorem entry_shut_out : ¬ ∀ (system : System) (config config' : Str) (policy policy' : PinPolicy)
    (uid : UInt32) (serves : Serves uid) (text line : Str) (pin : Pin) (c : PinCounters) (t : Tpm)
    (env : Env) (username : Str) (entry : Entry),
      PinPolicy.parseConfig system config = .ok policy → PinPolicy.parseConfig system config' =
      .ok policy' → env.policy = policy' →
        Standing serves policy text pin c t → TypedAs text line → entry.Open env uid →
        env.uidOf username = some uid →
          entry.Succeeds idleKeys env ⟨none, none, none⟩ username text line t serves := by
  intro claim
  let longer : PinPolicy := { PinPolicy.default with minLength := 6 }
  let env : Env := { sampleEnv with policy := longer }
  have typed : TypedAs "4242".toList "4242\n".toList := ⟨by decide, .inr rfl⟩
  have open_ : Entry.test.Open env 1000 := rfl
  have succeeds :=
    claim bareSystem [] "pin_min_length=6".toList .default longer 1000
      serves_thousand _ _ plainPin _ _ env
    "alice".toList .test rfl (by decide +kernel) rfl plainPin_standing typed open_ rfl
  exact absurd ((entry_succeeds_iff plainPin_standing typed open_ rfl).1 succeeds) (by decide +kernel)

end Pinpam
