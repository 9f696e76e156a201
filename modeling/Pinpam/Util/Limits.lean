import Mathlib.Logic.Relation
import Pinpam.Core.Lifecycle
import Pinpam.Effect.Runs
import Pinpam.Util.Rules

/-!
# The limit of a slot

A slot keeps the limit it was set up with while PINs are tried on it and it is shown,
under whatever policies. A legacy slot is set up again, with the limit of the policy in
force, when a spelling of its PIN with leading zeros is accepted.
-/

namespace Pinpam
set_option autoImplicit false
open Pinpam.Effect Pinpam.Effect.Fallible

/-- A TPM that fails no command, and any host. -/
abbrev soundHost : Behaviour UtilCmd (Tpm × Console) := (Faulty Tpm.exec fun _ => False).sum Console.any

/-- The command runs to its end on a TPM that fails no command. -/
def Commands.Runs (command : Commands) (env : Env) (t : Tpm) (typed : List Str) (t' : Tpm) : Prop :=
  ∃ keys events r u, (Util.main env command).run.Runs soundHost (t, .start keys) events r (t', u) ∧
  u.typed = typed

/-- The command is about the user. -/
def Env.Names (env : Env) (username : Option Str) (uid : UInt32) : Prop :=
  ∃ name, env.resolveUsername username = .ok name ∧ env.uidOf name = some uid

/-- The PIN that a policy makes of the first line. -/
def PinPolicy.entered (policy : PinPolicy) (typed : List Str) : Option Pin :=
  typed.head?.bind fun line => (Pin.new line policy).toOption

/-- The slot of the user, if it can be read, does not accept the PIN. -/
def Tpm.Refuses (t : Tpm) (uid : UInt32) (pin : Pin) : Prop :=
  ∀ (serves : Serves uid) acc c, t.Shows serves acc → ¬ acc.Accepts pin c

/-- A call that tries a PIN on the slot of a user or shows it, under a policy and with the
PIN it presents; a deletion is one of the user's with a wrong PIN. -/
inductive Consults (uid : UInt32) : PinPolicy → Option Pin → Tpm → Tpm → Prop where
  | verifyPin (m : PinManager) (pin : Pin) (t : Tpm) :
      Consults uid m.policy (some pin) t (exec Tpm.exec (m.verifyPin uid pin) t).2
  | deletePinWithAuth (m : PinManager) (pin : Pin) (t : Tpm) (wrong : t.Refuses uid pin) :
      Consults uid m.policy (some pin) t (exec Tpm.exec (m.deletePinWithAuth uid pin) t).2
  | test {env : Env} {username : Option Str} {t t' : Tpm} {typed : List Str}
      (names : env.Names username uid) (runs : (Commands.test username).Runs env t typed t') :
      Consults uid env.policy (env.policy.entered typed) t t'
  | status {env : Env} {username : Option Str} {t t' : Tpm} {typed : List Str}
      (names : env.Names username uid) (runs : (Commands.status username).Runs env t typed t') :
      Consults uid env.policy (env.policy.entered typed) t t'
  | delete {env : Env} {username : Option Str} {t t' : Tpm} {typed : List Str} (user : env.uid ≠ 0)
      (names : env.Names username uid)
      (wrong : ∀ pin, env.policy.entered typed = some pin → t.Refuses uid pin)
      (runs : (Commands.delete username).Runs env t typed t') :
      Consults uid env.policy (env.policy.entered typed) t t'

/-- A PIN that a legacy slot accepts is spelled as it is stored, or the policy has the
limit of the slot and the TPM takes the spelling. -/
def Gentle {uid : UInt32} (serves : Serves uid) (policy : PinPolicy) (presented : Option Pin)
    (t : Tpm) : Prop :=
  ∀ pin acc c, presented = some pin → t.Shows serves acc → acc.tag.read = none → acc.Accepts pin c →
    normalizeLegacyPin pin.str = pin.str ∨
      policy.maxAttempts = c.pinLimit ∧ Account.refusal (asBytes pin.str) .absent = none

/-- The slot is written, with the limit. -/
def Account.Limited (limit : UInt32) (acc : Account) : Prop :=
  ∃ a c, acc.slot = .written a c ∧ c.pinLimit = limit

def Tpm.Limited {uid : UInt32} (serves : Serves uid) (limit : UInt32) (t : Tpm) : Prop :=
  ∃ acc : Account, t.Shows serves acc ∧ acc.Limited limit

section Limits

variable {uid limit : UInt32} {serves : Serves uid} {acc : Account} {pin : Pin} {m : PinManager}
  {t t' : Tpm} {policy : PinPolicy} {presented : Option Pin} {env : Env} {username : Option Str}
  {typed : List Str}

/-! ## On the account -/

theorem verifyPinExact_limited {bytes : Bytes} (kept : acc.Limited limit) :
    (acc.verifyPinExact uid bytes).2.Limited limit := by
  obtain ⟨a, c, slot, rfl⟩ := kept
  obtain ⟨c', left, same⟩ := @exact_written uid _ _ _ slot bytes
  rw [left]
  exact ⟨a, c', rfl, same⟩

theorem migrate_limited (kept : acc.Limited limit)
    (gentle : normalizeLegacyPin pin.str = pin.str ∨
      policy.maxAttempts = limit ∧ Account.refusal (asBytes pin.str) .absent = none) :
    (acc.migrateLegacyPinFormat uid pin policy.maxAttempts).2.Limited limit := by
  by_cases canonical : normalizeLegacyPin pin.str = pin.str
  · rw [Account.migrateLegacyPinFormat, if_pos canonical]
    exact kept
  · obtain ⟨same, taken⟩ := gentle.resolve_left canonical
    obtain ⟨a, c, slot, -⟩ := kept
    have present : acc.slot ≠ .absent := by simp [slot]
    rw [migrate_respelled canonical present, setupPin_stored rfl taken]
    exact ⟨_, _, rfl, same⟩

/-- A verification keeps the limit if what it migrates has the limit. -/
theorem verifyPin_limited (kept : acc.Limited limit)
    (gentle : ∀ c, acc.tag.read = none → acc.Accepts pin c → normalizeLegacyPin pin.str = pin.str ∨
      policy.maxAttempts = c.pinLimit ∧ Account.refusal (asBytes pin.str) .absent = none) :
    (acc.verifyPin uid pin policy.maxAttempts).2.Limited limit := by
  cases tag : acc.tag.read with
  | some version =>
    simp only [Account.verifyPin, tag]
    split
    · exact kept
    · exact verifyPinExact_limited kept
  | none =>
    by_cases hit :
      ∃ data, (acc.verifyPinExact uid (asBytes (normalizeLegacyPin pin.str))).1 = .ok (.success data)
    · obtain ⟨data, success⟩ := hit
      obtain ⟨short, c, slot, unlocked, low, -⟩ := exact_success success
      have opens : acc.slot.Opens pin.legacyAuth c := ⟨slot, unlocked, low⟩
      have same : c.pinLimit = limit := by
        obtain ⟨a, c', slot', same⟩ := kept
        rw [slot] at slot'
        exact (SlotState.written.inj slot').2 ▸ same
      rw [verifyPin_legacy tag opens short]
      apply migrate_limited
      · exact ⟨_, _, rfl, same⟩
      · rw [← same]
        exact gentle c tag (.legacy tag opens short)
    · rw [verifyPin_legacy_fails tag fun data success => hit ⟨data, success⟩]
      exact verifyPinExact_limited kept

/-- A deletion with a wrong PIN goes no further than its verification. -/
theorem deletePinWithAuth_wrong (wrong : ∀ c, ¬ acc.Accepts pin c) :
    (acc.deletePinWithAuth uid pin limit).1 ≠ .ok .success ∧
      (acc.deletePinWithAuth uid pin limit).2 = (acc.verifyPin uid pin limit).2 := by
  unfold Account.deletePinWithAuth
  cases verified : acc.verifyPin uid pin limit with
  | mk r a =>
    match r, verified with
    | .ok (.success data), verified =>
      obtain ⟨c, accepts, -⟩ := verifyPin_success_iff.1 (congrArg Prod.fst verified)
      exact absurd accepts (wrong c)
    | .ok (.invalid locked), _ => exact ⟨nofun, rfl⟩
    | .ok .lockedOut, _ => exact ⟨nofun, rfl⟩
    | .error err, _ => exact ⟨nofun, rfl⟩

/-! ## On the TPM -/

/-- The account stays, or a PIN that was entered was tried on it. -/
def TriesOn (serves : Serves uid) (policy : PinPolicy) (t : Tpm) (acc : Account)
    (op : Pin → Account) (x : Tpm × Console) : Prop :=
  x.1 = t.put serves acc ∨ ∃ pin, policy.entered x.2.typed = some pin ∧ x.1 = t.put serves (op pin)

theorem entered_line {line : Str} (made : Pin.new line policy = .ok pin) :
    policy.entered [line] = some pin := by
  simp [PinPolicy.entered, made, Except.toOption]

@[simp] theorem reported_typed {α : Type} [Serialize α] {r : PinResult α} {u : Console} :
    (env.reported r u).typed = u.typed := by
  unfold Env.reported
  split <;> rfl

/-- A command on its user, by what it does before its report. -/
theorem onUser_tries {α : Type} [Serialize α] {command : Str → UtilM α} {op : Pin → Account}
    {keys : KeyStore}
    (names : env.Names username uid) (body : ∀ name, env.getUidFromUsername name = .ok uid →
      wpx soundHost (fun _ => True) (command name) (fun _ => TriesOn serves env.policy t acc op)
        (t.put serves acc, .start keys)) :
    wpx soundHost (fun _ => True) (Util.onUser env command username)
      (fun _ => TriesOn serves env.policy t acc op)
      (t.put serves acc, .start keys) := by
  obtain ⟨name, resolved, found⟩ := names
  apply wpx_onUser trivial
  · exact fun _ => .inl rfl
  · intro name' resolved'
    obtain rfl : name = name' := Except.ok.inj (resolved.symm.trans resolved')
    have uidFound : env.getUidFromUsername name = .ok uid := by rw [Env.getUidFromUsername, found]
    apply wpx_report
    refine wpx_mono (body name uidFound) fun r x _ tries => ⟨trivial, ?_⟩
    unfold TriesOn at tries ⊢
    simpa using tries

theorem test_tries {keys : KeyStore} (names : env.Names username uid) :
    wpx soundHost (fun _ => True) (Util.main env (.test username))
      (fun _ => TriesOn serves env.policy t acc fun pin =>
        (acc.verifyPin uid pin env.policy.maxAttempts).2)
      (t.put serves acc, .start keys) := by
  apply onUser_tries names
  intro name found
  apply Util.wpx_testPin found serving_faulty (fun _ => trivial)
  · exact fun _ _ => .inl rfl
  · intro _ _ _ _ line pin made
    have verified :
        TriesOn serves env.policy t acc (fun pin => (acc.verifyPin uid pin env.policy.maxAttempts).2)
          (t.put serves (acc.verifyPin uid pin env.policy.maxAttempts).2,
            (Console.start keys).types [line]) :=
      .inr ⟨pin, entered_line made, rfl⟩
    refine wpx_verifyPin (fun _ _ => trivial) ?_ (fun _ _ _ _ _ no => no.elim)
      (fun _ _ _ _ _ _ _ _ no => no.elim) fun _ no => no.elim
    exact ⟨fun _ _ _ => verified, fun _ _ => verified⟩

theorem delete_tries {keys : KeyStore} (user : env.uid ≠ 0) (names : env.Names username uid) :
    wpx soundHost (fun _ => True) (Util.main env (.delete username))
      (fun _ => TriesOn serves env.policy t acc fun pin =>
        (acc.deletePinWithAuth uid pin env.policy.maxAttempts).2)
      (t.put serves acc, .start keys) := by
  apply onUser_tries names
  intro name found
  apply Util.wpx_deletePin found serving_faulty (fun _ => trivial)
  · exact fun _ _ => .inl rfl
  · exact fun root => absurd root user
  · exact fun root => absurd root user
  · intro _ _ _ _ _ line pin made
    refine wpx_deletePinWithAuth (fun _ _ => trivial) ?_ (fun _ _ _ _ _ no => no.elim)
      (fun _ _ _ _ _ no => no.elim)
      fun _ no => no.elim
    exact .inr ⟨pin, entered_line made, rfl⟩

theorem status_tries {keys : KeyStore} (names : env.Names username uid) :
    wpx soundHost (fun _ => True) (Util.main env (.status username))
      (fun _ => TriesOn serves env.policy t acc fun _ => acc)
      (t.put serves acc, .start keys) := by
  apply onUser_tries names
  intro name found
  exact Util.wpx_showStatus found serving_faulty trivial fun _ => .inl rfl

/-- A command keeps the limit if the PIN that was tried does. -/
theorem Commands.Runs.limited {command : Commands} {op : Pin → Account}
    (runs : command.Runs env t typed t')
    (tries : ∀ keys, wpx soundHost (fun _ => True) (Util.main env command)
      (fun _ => TriesOn serves env.policy t acc op)
      (t.put serves acc, .start keys)) (shows_ : t.Shows serves acc) (kept : acc.Limited limit)
    (op_kept : ∀ pin, env.policy.entered typed = some pin → (op pin).Limited limit) :
    t'.Limited serves limit := by
  obtain ⟨keys, events, r, u, run, rfl⟩ := runs
  rw [← shows_.eq_put] at run
  rcases run.post (tries keys) with same | ⟨pin, entered, same⟩
  · obtain rfl : t' = t.put serves acc := same
    exact ⟨acc, Tpm.put_shows, kept⟩
  · obtain rfl : t' = t.put serves (op pin) := same
    exact ⟨op pin, Tpm.put_shows, op_kept pin entered⟩

/-- One call. -/
theorem Consults.limited (consults : Consults uid policy presented t t')
    (gentle : Gentle serves policy presented t) (kept : t.Limited serves limit) :
    t'.Limited serves limit := by
  obtain ⟨acc, shows_, limited⟩ := kept
  have verified :
      ∀ pin, presented = some pin → (acc.verifyPin uid pin policy.maxAttempts).2.Limited limit := by
    intro pin same
    exact verifyPin_limited limited fun c legacy accepts => gentle pin acc c same shows_ legacy accepts
  have refused : ∀ pin, presented = some pin → t.Refuses uid pin →
      (acc.deletePinWithAuth uid pin policy.maxAttempts).2.Limited limit := by
    intro pin same wrong
    rw [(deletePinWithAuth_wrong fun c => wrong serves acc c shows_).2]
    exact verified pin same
  cases consults with
  | verifyPin m pin =>
    rw [← shows_.eq_put, exec_verifyPin]
    exact ⟨_, Tpm.put_shows, verified pin rfl⟩
  | deletePinWithAuth m pin _ wrong =>
    rw [← shows_.eq_put, exec_deletePinWithAuth]
    exact ⟨_, Tpm.put_shows, refused pin rfl wrong⟩
  | test names runs => exact runs.limited (fun _ => test_tries names) shows_ limited verified
  | status names runs =>
    exact runs.limited (fun _ => status_tries names) shows_ limited fun _ _ => limited
  | delete user names wrong runs =>
    exact runs.limited (fun _ => delete_tries user names) shows_ limited fun pin entered =>
      refused pin entered (wrong pin entered)

/-- In every run of calls that set up no legacy slot again under another limit, the slot
keeps its limit. -/
theorem limit_kept_along_run (start : t.Limited serves limit) (run : Relation.ReflTransGen (fun t t' =>
    ∃ policy presented, Consults uid policy presented t t' ∧ Gentle serves policy presented t) t t') :
    t'.Limited serves limit := by
  induction run with
  | refl => exact start
  | tail _ step ih =>
    obtain ⟨policy, presented, consults, gentle⟩ := step
    exact consults.limited gentle ih

end Limits

/-! ## Samples -/

/-- A slot that an old version set up with three attempts. -/
def legacyTpm : Tpm := Tpm.empty.put serves_thousand ⟨.written chosenPin.legacyAuth ⟨0, 3⟩, .absent⟩

theorem legacyTpm_limited : legacyTpm.Limited serves_thousand 3 := ⟨_, Tpm.put_shows, _, _, rfl, rfl⟩

theorem limit_kept_once :
    (exec Tpm.exec (defaultManager.verifyPin 1000 chosenPin) legacyTpm).2.Limited
      serves_thousand 3 := by
  refine limit_kept_along_run legacyTpm_limited
    (.single ⟨_, _, .verifyPin defaultManager chosenPin legacyTpm, ?_⟩)
  rintro pin acc c ⟨⟩ shows_ - accepts
  obtain rfl := shows_.unique Tpm.put_shows
  refine .inr ⟨?_, by decide +kernel⟩
  cases accepts with
  | current tag => cases tag
  | legacy _ opens =>
    cases opens.written
    rfl

/-- A verification under a policy with five attempts gives the slot five. -/
theorem limit_raised : ¬ ∀ (uid : UInt32) (serves : Serves uid) (limit : UInt32) (t t' : Tpm),
    t.Limited serves limit →
    Relation.ReflTransGen (fun t t' => ∃ policy presented, Consults uid policy presented t t') t t' →
    t'.Limited serves limit := by
  intro claim
  obtain ⟨acc, shows_, a, c, slot, same⟩ := claim 1000 serves_thousand 3 legacyTpm _ legacyTpm_limited
    (.single ⟨_, _, .verifyPin (limitedManager 5) chosenPin legacyTpm⟩)
  have raised : Account.verifyPin 1000 chosenPin 5 ⟨.written chosenPin.legacyAuth ⟨0, 3⟩, .absent⟩ =
      (.ok (.success ⟨0, 3⟩), ⟨.written chosenPin.auth ⟨0, 5⟩, .version 2⟩) := by decide +kernel
  rw [legacyTpm, exec_verifyPin,
    show (limitedManager 5).policy.maxAttempts = 5 from rfl, raised] at shows_
  obtain rfl := shows_.unique Tpm.put_shows
  cases slot
  exact absurd same (by decide)

end Pinpam
