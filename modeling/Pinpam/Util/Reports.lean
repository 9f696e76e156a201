import Pinpam.Core.Calls
import Pinpam.Util.Machine

/-!
# What machine mode reports

A front end trusts the exit status and the printed result. Both agree always; that the
effect happened holds of every command but one: the deletion by a user drops the result
of the authenticated deletion.
-/

namespace Pinpam
set_option autoImplicit false
open Pinpam.Effect Pinpam.Effect.Fallible

/-- The commands on a user that report a `PinResult<()>`. -/
inductive UserCommand where
  | setup | change | delete | test

namespace UserCommand

def named (username : Option Str) : UserCommand → Commands
  | .setup => .setup username
  | .change => .change username
  | .delete => .delete username
  | .test => .test username

def program (env : Env) : UserCommand → Str → UtilM Unit
  | .setup => Util.setupPin env
  | .change => Util.changePin env
  | .delete => Util.deletePin env
  | .test => Util.testPin env

/-- The command on the account of its user. -/
def onAccount (env : Env) (uid : UInt32) :
    UserCommand → Account → Stdin → PinResult Unit × Account × Stdin
  | .setup => Machine.setupPin env uid
  | .change => Machine.changePin env uid
  | .delete => Machine.deletePin env uid
  | .test => Machine.testPin env uid

variable {uid : UInt32}

/-- What a reported success stands for: the slot holds the new PIN, which was the last
line typed, under the current version; the slot is gone; the PIN was accepted. -/
def Effect (env : Env) (serves : Serves uid) (t t' : Tpm) (typed : List Str) : UserCommand → Prop
  | .setup | .change => ∃ line pin, typed.getLast? = some line ∧ Pin.new line env.policy = .ok pin ∧
      t'.Shows serves ⟨.written pin.auth ⟨0, env.policy.maxAttempts⟩, .version PIN_VERSION_CURRENT⟩
  | .delete => t'.nv (slotHandle uid serves) = none
  | .test => ∃ line pin acc c, typed = [line] ∧ Pin.new line env.policy = .ok pin ∧
    t.Shows serves acc ∧ acc.Accepts pin c

/-- A run of the command on an input. -/
def run (ops : KeyOps) (env : Env) (username : Option Str) (t : Tpm) (input : List (Except Str Str))
    (keys : KeyStore) (command : UserCommand) : Except Stop Unit × Tpm × Stdin :=
  exec (process ops) (Util.main env (command.named username)) (t, ⟨input, .start keys⟩)

end UserCommand

/-- The exit status is 0 exactly when the printed result is an `Ok`, and then the effect
happened to the user that was named. -/
structure ReportsTruly (ops : KeyOps) (env : Env) (username : Option Str) (t : Tpm)
    (input : List (Except Str Str)) (keys : KeyStore) (command : UserCommand) : Prop where
  status : exitStatus (command.run ops env username t input keys).1 = 0 ↔
    ∃ json, (command.run ops env username t input keys).2.2.console.printed = [json] ∧ json.isOk = true
  effect : exitStatus (command.run ops env username t input keys).1 = 0 →
    ∃ name uid, ∃ serves : Serves uid, env.resolveUsername username = .ok name ∧
    env.uidOf name = some uid ∧
      command.Effect env serves t (command.run ops env username t input keys).2.1
        (command.run ops env username t input keys).2.2.console.typed

/-- The first line that is read. -/
def firstLine : List (Except Str Str) → Except Str Str
  | [] => .ok []
  | line :: _ => line

/-- The TPM compares the PIN with a slot it can open, and does not accept it. -/
structure Account.Refuses (pin : Pin) (acc : Account) : Prop where
  open_ : ∃ a c, acc.slot = .written a c ∧ ¬ c.locked
  known : acc.tag.read = none ∨ acc.tag.read = some PIN_VERSION_CURRENT
  short : (asBytes (if acc.tag.read = none then normalizeLegacyPin pin.str else pin.str)).length ≤
    authMaxSize
  refused : ¬ ∃ c, acc.Accepts pin c

/-- A user deletes the own slot and enters a PIN that the slot refuses. -/
def DeletesRefused (env : Env) (username : Option Str) (t : Tpm) (input : List (Except Str Str))
    (command : UserCommand) :
    Prop :=
  command = .delete ∧ env.uid ≠ 0 ∧ ∃ name, ∃ serves : Serves env.uid, ∃ line pin acc,
    env.resolveUsername username = .ok name ∧ env.uidOf name = some env.uid ∧
    firstLine input = .ok line ∧
      Pin.new line env.policy = .ok pin ∧ t.Shows serves acc ∧ acc.Refuses pin

section Accounts

variable {uid limit : UInt32} {acc : Account} {pin : Pin} {c : PinCounters}

theorem setupPin_ok (ok : (acc.setupPin uid pin limit).1 = .ok ()) :
    (acc.setupPin uid pin limit).2 = ⟨.written pin.auth ⟨0, limit⟩, .version PIN_VERSION_CURRENT⟩ := by
  unfold Account.setupPin at ok ⊢
  split at ok
  · cases ok
  next unwritten =>
    rw [if_neg unwritten]
    cases fresh : Account.refusal (asBytes pin.str) acc.slot with
    | some err =>
      rw [fresh] at ok
      cases ok
    | none => rfl

theorem deletePinAdmin_ok {u : Unit} (ok : (acc.deletePinAdmin uid).1 = .ok u) :
    (acc.deletePinAdmin uid).2.slot = .absent := by
  unfold Account.deletePinAdmin at ok ⊢
  split at ok
  · cases ok
  next present => rw [if_neg present]

/-- An unlocked slot is not reported as locked. -/
theorem info_unlocked (unlocked : ¬ c.locked) : (AttemptInfo.fromPinData c.data).locked = false := by
  apply decide_eq_false
  rintro ⟨positive, reached⟩
  have limit : ¬ c.data.pinLimit ≤ 0 := by
    intro low
    simp only [AttemptInfo.fromPinData, if_pos low] at positive
    exact absurd positive (by decide)
  have high : c.pinLimit.toNat < 2 ^ 31 := by
    by_contra above
    apply limit
    apply Int32.le_iff_toInt_le.2
    show c.pinLimit.toBitVec.toInt ≤ 0
    have negative := BitVec.toInt_eq_toNat_cond c.pinLimit.toBitVec
    have bound := c.pinLimit.toNat_lt
    have value : c.pinLimit.toBitVec.toNat = c.pinLimit.toNat := rfl
    rw [value, if_neg (by omega)] at negative
    omega
  have below := UInt32.lt_iff_toNat_lt.1 (UInt32.not_le.1 unlocked)
  have count : ¬ c.data.pinCount < 0 := by
    intro negative
    have value : c.data.pinCount.toInt = c.pinCount.toNat := toInt_toInt32 (by omega)
    have zero := Int32.lt_iff_toInt_lt.1 negative
    rw [value] at zero
    simp only [Int32.toInt_zero] at zero
    omega
  simp only [AttemptInfo.fromPinData, if_neg limit, if_neg count] at reached
  exact unlocked reached

/-- A comparison that is neither a success nor an error. -/
theorem verifyPinExact_refused_iff {bytes : Bytes} :
    (∃ v, (acc.verifyPinExact uid bytes).1 = .ok v ∧ ∀ data, v ≠ .success data) ↔
      (∃ a c, acc.slot = .written a c ∧ ¬ c.locked) ∧ bytes.length ≤ authMaxSize ∧
        ¬ ∃ c, acc.slot.Opens (.ofBytes bytes) c := by
  unfold Account.verifyPinExact
  obtain ⟨slot, tag⟩ := acc
  cases slot with
  | absent =>
    constructor
    · rintro ⟨v, ⟨⟩, -⟩
    · rintro ⟨⟨_, _, ⟨⟩, -⟩, -⟩
  | unwritten a =>
    constructor
    · rintro ⟨v, eq, -⟩
      split at eq <;> cases eq
    · rintro ⟨⟨_, _, ⟨⟩, -⟩, -⟩
  | written a c =>
    by_cases long : authMaxSize < bytes.length
    · rw [if_pos ⟨by simp, long⟩]
      constructor
      · rintro ⟨v, ⟨⟩, -⟩
      · rintro ⟨-, short, -⟩
        omega
    rw [if_neg fun both => long both.2]
    unfold SlotState.verdict
    dsimp only
    by_cases locked : c.locked
    · rw [if_pos locked]
      constructor
      · rintro ⟨v, ⟨⟩, -⟩
      · rintro ⟨⟨_, _, ⟨⟩, unlocked⟩, -⟩
        exact absurd locked unlocked
    rw [if_neg locked]
    by_cases hit : Auth.ofBytes bytes = a
    · rw [if_pos hit, atLimit_after_hit locked]
      by_cases high : 2 ^ 31 ≤ c.pinLimit.toNat
      · rw [decide_eq_true high, if_pos rfl]
        constructor
        · rintro -
          refine ⟨⟨a, c, rfl, locked⟩, by omega, ?_⟩
          rintro ⟨c', opens⟩
          obtain ⟨-, rfl⟩ := SlotState.written.inj opens.written
          have := opens.low
          omega
        · exact fun _ => ⟨_, rfl, by simp⟩
      · rw [decide_eq_false high]
        constructor
        · rintro ⟨v, ⟨⟩, other⟩
          exact absurd rfl (other _)
        · rintro ⟨-, -, refused⟩
          exact absurd ⟨c, by rw [hit], locked, by omega⟩ refused
    · rw [if_neg hit]
      constructor
      · rintro -
        refine ⟨⟨a, c, rfl, locked⟩, by omega, ?_⟩
        rintro ⟨c', opens⟩
        exact hit (SlotState.written.inj opens.written).1.symm
      · exact fun _ => ⟨_, rfl, by simp⟩

/-- The results of a verification that is neither a success nor an error. -/
theorem verifyPin_refused_iff :
    (∃ v, (acc.verifyPin uid pin limit).1 = .ok v ∧ ∀ data, v ≠ .success data) ↔ acc.Refuses pin := by
  cases tag : acc.tag.read with
  | some version =>
    by_cases current : version = PIN_VERSION_CURRENT
    · subst current
      rw [verifyPin_current tag, verifyPinExact_refused_iff]
      constructor
      · rintro ⟨open_, short, refused⟩
        refine ⟨open_, .inr tag, by rwa [tag, if_neg (by simp)], ?_⟩
        rintro ⟨c, ⟨-, opens, -⟩ | ⟨legacy, -, -⟩⟩
        · exact refused ⟨c, opens⟩
        · rw [tag] at legacy
          cases legacy
      · rintro ⟨open_, -, short, refused⟩
        rw [tag, if_neg (by simp)] at short
        exact ⟨open_, short, fun opens => refused (opens.imp fun _ opens => .current tag opens short)⟩
    · simp only [Account.verifyPin, tag, ne_eq, current, not_false_eq_true, if_true]
      constructor
      · rintro ⟨v, ⟨⟩, -⟩
      · rintro ⟨-, known, -, -⟩
        rw [tag] at known
        rcases known with missing | same
        · cases missing
        · exact absurd (Option.some.inj same) current
  | none =>
    have legacy : (∃ v, (acc.verifyPin uid pin limit).1 = .ok v ∧ ∀ data, v ≠ .success data) ↔
        ∃ v, (acc.verifyPinExact uid (asBytes (normalizeLegacyPin pin.str))).1 = .ok v ∧ ∀ data,
        v ≠ .success data := by
      simp only [Account.verifyPin, tag]
      rcases acc.verifyPinExact uid
        (asBytes (normalizeLegacyPin pin.str)) with ⟨e | (slot | locked | _), a⟩
      · exact Iff.rfl
      · constructor
        · rintro ⟨v, ⟨⟩, other⟩
          exact absurd rfl (other _)
        · rintro ⟨v, ⟨⟩, other⟩
          exact absurd rfl (other _)
      · exact Iff.rfl
      · exact Iff.rfl
    rw [legacy, verifyPinExact_refused_iff]
    constructor
    · rintro ⟨open_, short, refused⟩
      refine ⟨open_, .inl tag, by rwa [tag, if_pos rfl], ?_⟩
      rintro ⟨c, ⟨current, -, -⟩ | ⟨-, opens, -⟩⟩
      · rw [tag] at current
        cases current
      · exact refused ⟨c, opens⟩
    · rintro ⟨open_, -, short, refused⟩
      rw [tag, if_pos rfl] at short
      exact ⟨open_, short, fun opens => refused (opens.imp fun _ opens => .legacy tag opens short)⟩

end Accounts

section Input

variable {s s' : Stdin} {policy : PinPolicy} {env : Env} {uid : UInt32} {acc : Account}

theorem promptPin_printed : (s.promptPin policy).2.console.printed = s.console.printed := by
  obtain ⟨input, console⟩ := s
  match input with
  | [] => rfl
  | .ok line :: rest => rfl
  | .error err :: rest => rfl

/-- A PIN that was read is what the policy makes of the next line. -/
theorem promptPin_ok {pin : Pin} (read : s.promptPin policy = (.ok pin, s')) :
    ∃ line, firstLine s.input = .ok line ∧ Pin.new line policy = .ok pin ∧ s'.console =
    s.console.types [line] := by
  obtain ⟨input, console⟩ := s
  match input with
  | [] => cases read
  | .ok line :: rest =>
    obtain ⟨made, rfl⟩ := Prod.mk.inj read
    exact ⟨line, rfl, made, rfl⟩
  | .error err :: rest => cases read

theorem promptPin_of_firstLine {line : Str} {pin : Pin} (first : firstLine s.input = .ok line)
    (made : Pin.new line policy = .ok pin) : (s.promptPin policy).1 = .ok pin := by
  obtain ⟨input, console⟩ := s
  match input with
  | [] =>
    cases first
    exact made
  | .ok line :: rest =>
    cases first
    exact made
  | .error err :: rest => cases first

/-- The commands only read. -/
theorem replacePin_printed {current : Pin} :
    (Machine.replacePin env uid current acc s).2.2.console.printed = s.console.printed := by
  have read := @promptPin_printed s env.policy
  unfold Machine.replacePin
  rw [← read]
  rcases s.promptPin env.policy with ⟨e | new, s'⟩
  · rfl
  dsimp only
  split <;> rfl

theorem onAccount_printed {command : UserCommand} :
    (command.onAccount env uid acc s).2.2.console.printed = s.console.printed := by
  have read : ∀ {r s'}, s.promptPin env.policy = (r, s') → s'.console.printed = s.console.printed :=
    fun eq => (congrArg (fun x => x.2.console.printed) eq).symm.trans promptPin_printed
  cases command with
  | setup =>
    show (Machine.setupPin env uid acc s).2.2.console.printed = _
    unfold Machine.setupPin
    split
    · rfl
    split
    · rfl
    rcases prompt : s.promptPin env.policy with ⟨e | pin, s'⟩ <;> exact read prompt
  | change =>
    show (Machine.changePin env uid acc s).2.2.console.printed = _
    unfold Machine.changePin
    split
    · rfl
    cases acc.slot.data.map AttemptInfo.fromPinData with
    | none => rfl
    | some info =>
      dsimp only
      split
      · split
        · rfl
        unfold Machine.changeOwnPin
        rcases prompt : s.promptPin env.policy with ⟨e | current, s'⟩
        · exact read prompt
        dsimp only
        rcases acc.verifyPin uid current env.policy.maxAttempts with ⟨e | (slot | locked | _), a⟩
        · exact read prompt
        · exact replacePin_printed.trans (read prompt)
        · exact read prompt
        · exact read prompt
      · unfold Machine.changeAnyPin
        rcases prompt : s.promptPin env.policy with ⟨e | new, s'⟩
        · exact read prompt
        dsimp only
        rcases acc.deletePinAdmin uid with ⟨e | _, a⟩ <;> exact read prompt
  | delete =>
    show (Machine.deletePin env uid acc s).2.2.console.printed = _
    unfold Machine.deletePin
    split
    · rfl
    cases acc.slot.data.map AttemptInfo.fromPinData with
    | none => rfl
    | some info =>
      dsimp only
      split
      · rfl
      split
      · rfl
      unfold Machine.deleteOwnPin
      rcases prompt : s.promptPin env.policy with ⟨e | pin, s'⟩ <;> exact read prompt
  | test =>
    show (Machine.testPin env uid acc s).2.2.console.printed = _
    unfold Machine.testPin
    split
    · rfl
    cases acc.slot.data.map AttemptInfo.fromPinData with
    | none => rfl
    | some info =>
      dsimp only
      split
      · rfl
      rcases prompt : s.promptPin env.policy with ⟨e | pin, s'⟩
      · exact read prompt
      dsimp only
      rcases acc.verifyPin uid pin env.policy.maxAttempts with ⟨e | (slot | locked | _), a⟩ <;>
        exact read prompt

end Input

/-! ## The effects -/

section Effects

variable {env : Env} {uid : UInt32} {serves : Serves uid} {t : Tpm} {acc : Account} {s : Stdin}
  {u : Unit}

theorem setup_effect (ok : (Machine.setupPin env uid acc s).1 = .ok u) : ∃ line pin,
    (Machine.setupPin env uid acc s).2.2.console.typed = s.console.typed ++ [line] ∧
    Pin.new line env.policy = .ok pin ∧
      (Machine.setupPin env uid acc s).2.1 = ⟨.written pin.auth ⟨0, env.policy.maxAttempts⟩,
        .version PIN_VERSION_CURRENT⟩ := by
  unfold Machine.setupPin at ok ⊢
  split at ok
  · cases ok
  next manages =>
    rw [if_neg manages]
    split at ok
    · cases ok
    next free =>
      rw [if_neg free]
      rcases read : s.promptPin env.policy with ⟨e | pin, s'⟩
      · rw [read] at ok
        cases ok
      · rw [read] at ok
        obtain ⟨line, -, made, console⟩ := promptPin_ok read
        exact ⟨line, pin, by rw [console]; rfl, made, setupPin_ok ok⟩

theorem replace_effect {current : Pin} (ok : (Machine.replacePin env uid current acc s).1 = .ok u) :
    ∃ line pin,
    (Machine.replacePin env uid current acc s).2.2.console.typed = s.console.typed ++ [line] ∧
      Pin.new line env.policy = .ok pin ∧
      (Machine.replacePin env uid current acc s).2.1 =
        ⟨.written pin.auth ⟨0, env.policy.maxAttempts⟩, .version PIN_VERSION_CURRENT⟩ := by
  unfold Machine.replacePin at ok ⊢
  rcases read : s.promptPin env.policy with ⟨e | pin, s'⟩
  · rw [read] at ok
    cases ok
  rw [read] at ok
  obtain ⟨line, -, made, console⟩ := promptPin_ok read
  dsimp only at ok ⊢
  revert ok
  rcases acc.deletePinWithAuth uid current env.policy.maxAttempts with ⟨e | (_ | locked | _), a⟩
  · nofun
  · exact fun ok => ⟨line, pin, by rw [console]; rfl, made, setupPin_ok ok⟩
  · nofun
  · nofun

theorem change_effect (ok : (Machine.changePin env uid acc s).1 = .ok u) : ∃ lines line pin,
    (Machine.changePin env uid acc s).2.2.console.typed = s.console.typed ++ lines ++ [line] ∧
      Pin.new line env.policy = .ok pin ∧
      (Machine.changePin env uid acc s).2.1 =
        ⟨.written pin.auth ⟨0, env.policy.maxAttempts⟩, .version PIN_VERSION_CURRENT⟩ := by
  unfold Machine.changePin at ok ⊢
  split at ok
  · cases ok
  next manages =>
    rw [if_neg manages]
    cases slot : acc.slot.data.map AttemptInfo.fromPinData with
    | none =>
      rw [slot] at ok
      cases ok
    | some info =>
      rw [slot] at ok
      dsimp only at ok ⊢
      by_cases user : env.uid ≠ 0
      · rw [if_pos user] at ok ⊢
        split at ok
        · cases ok
        next unlocked =>
          rw [if_neg unlocked]
          unfold Machine.changeOwnPin at ok ⊢
          rcases read : s.promptPin env.policy with ⟨e | current, s'⟩
          · rw [read] at ok
            cases ok
          rw [read] at ok
          obtain ⟨line, -, -, console⟩ := promptPin_ok read
          dsimp only at ok ⊢
          revert ok
          rcases acc.verifyPin uid current env.policy.maxAttempts with ⟨e | (slot | locked | _), a⟩
          · nofun
          · intro ok
            obtain ⟨line', pin, typed, made, account⟩ := replace_effect ok
            rw [console] at typed
            exact ⟨[line], line', pin, typed, made, account⟩
          · nofun
          · nofun
      · rw [if_neg user] at ok ⊢
        unfold Machine.changeAnyPin at ok ⊢
        rcases read : s.promptPin env.policy with ⟨e | new, s'⟩
        · rw [read] at ok
          cases ok
        rw [read] at ok
        obtain ⟨line, -, made, console⟩ := promptPin_ok read
        dsimp only at ok ⊢
        revert ok
        rcases acc.deletePinAdmin uid with ⟨e | _, a⟩
        · nofun
        · exact fun ok => ⟨[], line, new, by rw [console, List.append_nil]; rfl, made, setupPin_ok ok⟩

theorem test_effect (ok : (Machine.testPin env uid acc s).1 = .ok u) : ∃ line pin c,
    (Machine.testPin env uid acc s).2.2.console.typed = s.console.typed ++ [line] ∧
    Pin.new line env.policy = .ok pin ∧
      acc.Accepts pin c := by
  unfold Machine.testPin at ok ⊢
  split at ok
  · cases ok
  next attempts =>
    rw [if_neg attempts]
    cases slot : acc.slot.data.map AttemptInfo.fromPinData with
    | none =>
      rw [slot] at ok
      cases ok
    | some info =>
      rw [slot] at ok
      dsimp only at ok ⊢
      split at ok
      · cases ok
      next unlocked =>
        rw [if_neg unlocked]
        rcases read : s.promptPin env.policy with ⟨e | pin, s'⟩
        · rw [read] at ok
          cases ok
        rw [read] at ok
        obtain ⟨line, -, made, console⟩ := promptPin_ok read
        dsimp only at ok ⊢
        rcases verified : acc.verifyPin uid pin env.policy.maxAttempts with ⟨e | (slot | locked | _), a⟩
        · rw [verified] at ok
          cases ok
        · obtain ⟨c, accepts, -⟩ := verifyPin_success_iff.1 (congrArg Prod.fst verified)
          exact ⟨line, pin, c, by rw [console]; rfl, made, accepts⟩
        · rw [verified] at ok
          cases ok
        · rw [verified] at ok
          cases ok

/-- A deletion that reports success removed the slot, or was refused unheard. -/
theorem delete_effect (ok : (Machine.deletePin env uid acc s).1 = .ok u) :
    (Machine.deletePin env uid acc s).2.1.slot = .absent ∨
      env.uid ≠ 0 ∧ env.uid = uid ∧ ∃ line pin, firstLine s.input = .ok line ∧
      Pin.new line env.policy = .ok pin ∧
        acc.Refuses pin := by
  unfold Machine.deletePin at ok ⊢
  split at ok
  · cases ok
  next owner =>
    rw [if_neg owner]
    cases slot : acc.slot.data.map AttemptInfo.fromPinData with
    | none =>
      rw [slot] at ok
      cases ok
    | some info =>
      rw [slot] at ok
      dsimp only at ok ⊢
      split at ok
      · cases ok
      next unlocked =>
        rw [if_neg unlocked]
        by_cases root : env.uid = 0
        · rw [if_pos root] at ok ⊢
          exact .inl (deletePinAdmin_ok ok)
        rw [if_neg root] at ok ⊢
        have same : env.uid = uid := by
          by_contra other
          exact owner ⟨root, other⟩
        unfold Machine.deleteOwnPin at ok ⊢
        rcases read : s.promptPin env.policy with ⟨e | pin, s'⟩
        · rw [read] at ok
          cases ok
        rw [read] at ok
        obtain ⟨line, first, made, -⟩ := promptPin_ok read
        dsimp only at ok ⊢
        unfold Account.deletePinWithAuth at ok ⊢
        rcases verified : acc.verifyPin uid pin env.policy.maxAttempts with ⟨e | (slot | locked | _), a⟩
        · rw [verified] at ok
          cases ok
        · rw [verified] at ok
          refine .inl ?_
          dsimp only at ok ⊢
          cases deleted : (a.deletePinAdmin uid).1 with
          | error e =>
            rw [deleted] at ok
            cases ok
          | ok _ => exact deletePinAdmin_ok deleted
        · exact .inr ⟨root, same, line, pin, first, made,
            verifyPin_refused_iff.1 ⟨_, congrArg Prod.fst verified, nofun⟩⟩
        · exact .inr ⟨root, same, line, pin, first, made,
            verifyPin_refused_iff.1 ⟨_, congrArg Prod.fst verified, nofun⟩⟩

theorem verifyPin_missed {pin : Pin} {limit : UInt32} {v : VerificationResult}
    (result : (acc.verifyPin uid pin limit).1 = .ok v) (missed : ∀ data, v ≠ .success data) :
    ∃ bytes, acc.verifyPin uid pin limit = acc.verifyPinExact uid bytes := by
  cases tag : acc.tag.read with
  | some version =>
    by_cases current : version = PIN_VERSION_CURRENT
    · subst current
      exact ⟨_, verifyPin_current tag⟩
    · simp only [Account.verifyPin, tag, ne_eq, current, not_false_eq_true, if_true] at result
      cases result
  | none =>
    refine ⟨_, verifyPin_legacy_fails tag fun data hit => ?_⟩
    simp only [Account.verifyPin, tag] at result
    rcases verified : acc.verifyPinExact uid (asBytes (normalizeLegacyPin pin.str)) with ⟨r, a⟩
    rw [verified] at result hit
    obtain rfl := hit
    cases result
    exact missed _ rfl

/-- The refused deletion is reported as a success, and the slot stays. -/
theorem delete_refused {line : Str} {pin : Pin} (user : env.uid ≠ 0) (own : env.uid = uid)
    (first : firstLine s.input = .ok line) (made : Pin.new line env.policy = .ok pin)
    (refuses : acc.Refuses pin) :
    (Machine.deletePin env uid acc s).1 = .ok () ∧
    (Machine.deletePin env uid acc s).2.1.slot ≠ .absent := by
  obtain ⟨a, c, slot, unlocked⟩ := refuses.open_
  obtain ⟨v, result, missed⟩ := (@verifyPin_refused_iff uid env.policy.maxAttempts acc pin).2 refuses
  have stays : (acc.verifyPin uid pin env.policy.maxAttempts).2.slot ≠ .absent := by
    obtain ⟨bytes, same⟩ := verifyPin_missed result missed
    obtain ⟨c', left, -⟩ := @exact_written uid acc a c slot bytes
    rw [same, left]
    exact nofun
  have prompt : s.promptPin env.policy = (.ok pin, s.readLine.2) :=
    Prod.ext (promptPin_of_firstLine first made) rfl
  unfold Machine.deletePin
  rw [if_neg fun both => both.2 own, slot]
  dsimp only [SlotState.data, Option.map]
  rw [info_unlocked unlocked, if_neg (by simp), if_neg user]
  unfold Machine.deleteOwnPin
  rw [prompt]
  dsimp only
  unfold Account.deletePinWithAuth
  rcases verified : acc.verifyPin uid pin env.policy.maxAttempts with ⟨e | (data | locked | _), acc'⟩
  · rw [verified] at result
    cases result
  · rw [verified] at result
    cases result
    exact absurd rfl (missed _)
  · rw [verified] at stays
    exact ⟨rfl, stays⟩
  · rw [verified] at stays
    exact ⟨rfl, stays⟩

end Effects

/-! ## The reports -/

section Reports

variable {ops : KeyOps} {env : Env} {username : Option Str} {name : Str} {uid : UInt32}
  {serves : Serves uid} {t : Tpm} {acc : Account} {input : List (Except Str Str)} {keys : KeyStore}
  {command : UserCommand} {s : Stdin}

theorem main_named :
    Util.main env (command.named username) = Util.onUser env (command.program env) username := by
  cases command <;> rfl

theorem run_unknown {e : PinError} (unknown : env.resolveUsername username = .error e) :
    command.run ops env username t input keys = (.error (.returned e), t, ⟨input, .start keys⟩) := by
  unfold UserCommand.run
  rw [main_named, Util.onUser, unknown]
  rfl

theorem run_known (known : env.resolveUsername username = .ok name) :
    command.run ops env username t input keys =
    exec (process ops) (Util.report env (command.program env name)) (t, ⟨input, .start keys⟩) := by
  unfold UserCommand.run
  rw [main_named, Util.onUser, known]
  rfl

theorem program_refines (machine : env.machine = true)
    (resolved : env.getUidFromUsername name = .ok uid) :
    Refines ops serves (command.program env name) (command.onAccount env uid) := by
  cases command with
  | setup => exact setupPin_refines machine resolved
  | change => exact changePin_refines machine resolved
  | delete => exact deletePin_refines machine resolved
  | test => exact testPin_refines machine resolved

theorem exec_getAttemptInfo_overflow (past : ¬ Serves uid) :
    exec (process ops) (Util.getAttemptInfo uid) (t, s) = (.error (.uidOverflow uid), t, s) := by
  unfold Util.getAttemptInfo
  rw [getPinSlot_overflow past]
  rfl

/-- A user without indices is refused before anything is read. -/
theorem program_overflow (past : ¬ Serves uid) (resolved : env.getUidFromUsername name = .ok uid) :
    ∃ e, exec (process ops) (command.program env name) (t, s) = (.error e, t, s) := by
  have manager : ∀ t s, exec (process ops) (Util.newManager env) (t, s) = (.ok env.manager, t, s) :=
    fun _ _ => rfl
  cases command with
  | setup =>
    show ∃ e, exec (process ops) (Util.setupPin env name) (t, s) = (.error e, t, s)
    unfold Util.setupPin
    rw [resolved, ofResult_ok_bind]
    split
    · exact ⟨_, rfl⟩
    · rw [exec_bind, manager]
      dsimp only
      rw [getAttemptCount_eq, getPinSlot_overflow past]
      exact ⟨_, rfl⟩
  | change =>
    show ∃ e, exec (process ops) (Util.changePin env name) (t, s) = (.error e, t, s)
    unfold Util.changePin
    rw [resolved, ofResult_ok_bind]
    split
    · exact ⟨_, rfl⟩
    · rw [exec_bind, manager]
      dsimp only
      rw [exec_bind, exec_getAttemptInfo_overflow past]
      exact ⟨_, rfl⟩
  | delete =>
    show ∃ e, exec (process ops) (Util.deletePin env name) (t, s) = (.error e, t, s)
    unfold Util.deletePin
    rw [resolved, ofResult_ok_bind]
    split
    · exact ⟨_, rfl⟩
    · rw [exec_bind, manager]
      dsimp only
      rw [exec_bind, exec_getAttemptInfo_overflow past]
      exact ⟨_, rfl⟩
  | test =>
    show ∃ e, exec (process ops) (Util.testPin env name) (t, s) = (.error e, t, s)
    unfold Util.testPin
    rw [resolved, ofResult_ok_bind]
    split
    · exact ⟨_, rfl⟩
    · rw [exec_bind, manager]
      dsimp only
      rw [exec_bind, exec_getAttemptInfo_overflow past]
      exact ⟨_, rfl⟩

theorem exit_iff {r : PinResult Unit} : exitStatus (reportExit r) = 0 ↔ r = .ok () := by
  cases r with
  | ok u => exact ⟨fun _ => rfl, fun _ => rfl⟩
  | error e =>
    constructor
    · intro zero
      exact absurd zero (by decide : (1 : Nat) ≠ 0)
    · nofun

/-- One result is printed, and its kind is the exit status. -/
theorem status_of_report {r : PinResult Unit} {printed : List Json} (one : printed = [toJson r]) :
    exitStatus (reportExit r) = 0 ↔ ∃ json, printed = [json] ∧ json.isOk = true := by
  subst one
  rw [exit_iff]
  constructor
  · rintro rfl
    exact ⟨_, rfl, rfl⟩
  · rintro ⟨_, ⟨⟩, ok⟩
    rw [isOk_toJson] at ok
    cases r with
    | ok u => rfl
    | error e => cases ok

/-- The run of a command on a user with an account. -/
theorem run_on_account (machine : env.machine = true) (known : env.resolveUsername username = .ok name)
    (resolved : env.getUidFromUsername name = .ok uid) :
    command.run ops env username (t.put serves acc) input keys =
      (reportExit (command.onAccount env uid acc ⟨input, .start keys⟩).1,
        t.put serves (command.onAccount env uid acc ⟨input, .start keys⟩).2.1,
        { (command.onAccount env uid acc ⟨input, .start keys⟩).2.2 with
          console := (command.onAccount env uid acc ⟨input, .start keys⟩).2.2.console.prints
            (toJson (command.onAccount env uid acc ⟨input, .start keys⟩).1) }) := by
  rw [run_known known, exec_report machine, program_refines machine resolved]

/-- What a command that reports success has done. -/
theorem account_effect (resolved : env.uidOf name = some uid)
    (known : env.resolveUsername username = .ok name)
    (ok : (command.onAccount env uid acc ⟨input, .start keys⟩).1 = .ok ())
    (heard : ¬ DeletesRefused env username (t.put serves acc) input command) :
    command.Effect env serves (t.put serves acc)
      (t.put serves (command.onAccount env uid acc ⟨input, .start keys⟩).2.1)
      (command.onAccount env uid acc ⟨input, .start keys⟩).2.2.console.typed := by
  cases command with
  | setup =>
    obtain ⟨line, pin, typed, made, account⟩ := setup_effect ok
    refine ⟨line, pin, ?_, made, ?_⟩
    · exact congrArg List.getLast? typed
    · rw [← account]
      exact Tpm.put_shows
  | change =>
    obtain ⟨lines, line, pin, typed, made, account⟩ := change_effect ok
    refine ⟨line, pin, ?_, made, ?_⟩
    · exact (congrArg List.getLast? typed).trans List.getLast?_concat
    · rw [← account]
      exact Tpm.put_shows
  | delete =>
    rcases delete_effect ok with gone | ⟨user, rfl, line, pin, first, made, refuses⟩
    · show (t.put serves _).nv (slotHandle uid serves) = none
      rw [put_slot]
      exact congrArg SlotState.index gone
    · exact absurd ⟨rfl, user, name, serves, line, pin, acc, known, resolved, first, made,
        Tpm.put_shows, refuses⟩ heard
  | test =>
    obtain ⟨line, pin, c, typed, made, accepts⟩ := test_effect ok
    exact ⟨line, pin, acc, c, typed, made, Tpm.put_shows, accepts⟩

theorem deletesRefused_untrue (machine : env.machine = true)
    (refused : DeletesRefused env username t input command) :
    ¬ ReportsTruly ops env username t input keys command := by
  rintro ⟨-, effect⟩
  obtain ⟨rfl, user, name, serves, line, pin, acc, known, resolved, first, made, shows_, refuses⟩ :=
    refused
  have found : env.getUidFromUsername name = .ok env.uid := by rw [Env.getUidFromUsername, resolved]
  have run := @run_on_account ops env username name env.uid serves t acc input keys .delete
      machine known found
  rw [shows_.eq_put] at run
  obtain ⟨ok, stays⟩ :=
    @delete_refused env env.uid acc ⟨input, .start keys⟩ line pin user rfl first made refuses
  obtain ⟨name', uid', serves', known', resolved', gone⟩ := effect (by rw [run]; exact exit_iff.2 ok)
  cases known.symm.trans known'
  cases resolved.symm.trans resolved'
  rw [run] at gone
  apply stays
  apply SlotState.index_injective
  exact put_slot.symm.trans gone

/-- In machine mode a reported success means that the effect happened, for every run
but the deletion by a user whose PIN is refused. -/
theorem reports_truly_iff (machine : env.machine = true) (accounts : t.Accounts) :
    ReportsTruly ops env username t input keys command ↔
    ¬ DeletesRefused env username t input command := by
  refine ⟨fun truly refused => deletesRefused_untrue machine refused truly, fun heard => ?_⟩
  cases known : env.resolveUsername username with
  | error e =>
    have run := @run_unknown ops env username t input keys command e known
    constructor
    · rw [run]
      constructor
      · intro zero
        exact absurd zero (by decide : (1 : Nat) ≠ 0)
      · rintro ⟨_, ⟨⟩, -⟩
    · rw [run]
      intro zero
      exact absurd zero (by decide : (1 : Nat) ≠ 0)
  | ok name =>
    have failed : ∀ e, exec (process ops) (command.program env name) (t, ⟨input, .start keys⟩) =
        (.error e, t, ⟨input, .start keys⟩) → ReportsTruly ops env username t input keys command := by
      intro e failed
      have run := @run_known ops env username name t input keys command known
      rw [exec_report machine, failed] at run
      constructor
      · rw [run]
        exact @status_of_report (.error e) _ rfl
      · rw [run]
        intro zero
        exact absurd zero (by decide : (1 : Nat) ≠ 0)
    rcases getUid_cases env name with missing | ⟨uid, resolved, found⟩
    · apply failed .userNotFound
      cases command with
      | setup => exact congrArg (fun r => exec (process ops) (ofResult r >>= _) _) missing
      | change => exact congrArg (fun r => exec (process ops) (ofResult r >>= _) _) missing
      | delete => exact congrArg (fun r => exec (process ops) (ofResult r >>= _) _) missing
      | test => exact congrArg (fun r => exec (process ops) (ofResult r >>= _) _) missing
    by_cases serves : Serves uid
    · obtain ⟨acc, shows_⟩ := accounts uid serves
      have run := @run_on_account ops env username name uid serves t acc input keys command
          machine known found
      have effect :=
        @account_effect env username name uid serves t acc input keys command resolved known
      rw [shows_.eq_put] at run effect
      constructor
      · rw [run]
        apply status_of_report
        exact congrArg (· ++ [_]) onAccount_printed
      · rw [run]
        intro zero
        exact ⟨name, uid, serves, known, resolved, effect (exit_iff.1 zero) heard⟩
    · obtain ⟨e, stopped⟩ :=
        @program_overflow ops env name uid t command ⟨input, .start keys⟩ serves found
      exact failed e stopped

end Reports

/-! ## Samples -/

/-- User 1000, `alice`, in machine mode under the default policy. -/
def sampleEnv : Env where
  uid := 1000
  euid := 1000
  machine := true
  policy := .default
  uidOf name := if name = "alice".toList then some 1000 else none
  nameOf uid := if uid = 1000 then some "alice".toList else none

/-- A key store no command touches. -/
def idleKeys : KeyOps := fun _ keys => (.error .permissionDenied, keys)

theorem reports_truly_setup :
    ReportsTruly idleKeys sampleEnv none Tpm.empty [.ok "4242".toList] ⟨none, none, none⟩ .setup :=
  (reports_truly_iff rfl Tpm.empty_accounts).2 fun refused => nomatch refused.1

/-- The law as it was meant fails: deletion with a wrong PIN reports a success. -/
theorem reports_untruly : ¬ ∀ (ops : KeyOps) (env : Env) (username : Option Str) (t : Tpm)
    (input : List (Except Str Str)) (keys : KeyStore) (command : UserCommand),
    env.machine = true → t.Accounts →
      ReportsTruly ops env username t input keys command := by
  intro claim
  have truly := claim idleKeys sampleEnv none
    (Tpm.empty.put serves_thousand ⟨.written plainPin.auth ⟨0, 3⟩, .version PIN_VERSION_CURRENT⟩)
    [.ok "0042".toList] ⟨none, none, none⟩ .delete rfl (Tpm.empty_accounts.put _)
  refine deletesRefused_untrue rfl
    ⟨rfl, by decide, "alice".toList, serves_thousand, "0042".toList, chosenPin, _, rfl,
      by decide +kernel, rfl, Pin.new_eq_ok.2 ⟨by decide +kernel, by decide +kernel⟩,
      Tpm.put_shows, ?_⟩ truly
  refine ⟨⟨_, _, rfl, by decide⟩, .inr rfl, by decide +kernel, ?_⟩
  rintro ⟨c, ⟨-, opens, -⟩ | ⟨legacy, -, -⟩⟩
  · exact absurd (SlotState.written.inj opens.written).1 (by decide +kernel)
  · cases legacy

end Pinpam
