import Pinpam.Util.Rules

/-!
# Machine mode

The commands of pinutil on a given input, with a TPM that fails no command: what they
make of the account of their user and of the input, and the refinement of these
functions by the programs.
-/

namespace Pinpam
set_option autoImplicit false
open Pinpam.Effect Pinpam.Effect.Fallible

/-- `read_line` on the input. -/
def Stdin.readLine (s : Stdin) : PinResult Str × Stdin :=
  match s.input with
  | [] => (.ok [], { s with console := s.console.types [[]] })
  | .ok line :: rest => (.ok line, ⟨rest, s.console.types [line]⟩)
  | .error err :: rest => (.error (.ioError err), ⟨rest, s.console⟩)

/-- `prompt_pin` in machine mode. -/
def Stdin.promptPin (policy : PinPolicy) (s : Stdin) : PinResult Pin × Stdin :=
  (s.readLine.1.bind (Pin.new · policy), s.readLine.2)

/-- A new PIN, from one line or, at a terminal, from two. -/
def Stdin.confirmedPin (env : Env) (s : Stdin) : PinResult Pin × Stdin :=
  match s.promptPin env.policy with
  | (.error e, s) => (.error e, s)
  | (.ok pin, s) =>
    if env.machine then (.ok pin, s)
    else
      match s.promptPin env.policy with
      | (.error e, s) => (.error e, s)
      | (.ok confirm, s) => if pin.str ≠ confirm.str then (.error .pinsDontMatch, s) else (.ok pin, s)

theorem Stdin.confirmedPin_first {env : Env} {s : Stdin} {pin : Pin}
    (entered : (s.confirmedPin env).1 = .ok pin) :
    (s.promptPin env.policy).1 = .ok pin := by
  revert entered
  unfold confirmedPin
  rcases s.promptPin env.policy with ⟨e | first, s'⟩
  · exact nofun
  dsimp only
  split
  · exact id
  rcases s'.promptPin env.policy with ⟨e | confirm, s''⟩
  · exact nofun
  dsimp only
  split
  · exact nofun
  · exact id

namespace Machine

variable (env : Env) (uid : UInt32)

def setupPin (acc : Account) (s : Stdin) : PinResult Unit × Account × Stdin :=
  if ¬ env.canManagePin uid then (.error .permissionDenied, acc, s)
  else if acc.slot.data.isSome then (.error .pinAlreadySet, acc, s)
  else
    match s.promptPin env.policy with
    | (.error e, s) => (.error e, acc, s)
    | (.ok pin, s) => ((acc.setupPin uid pin env.policy.maxAttempts).1,
      (acc.setupPin uid pin env.policy.maxAttempts).2, s)

/-- What follows the verification of the current PIN. -/
def replacePin (current : Pin) (acc : Account) (s : Stdin) : PinResult Unit × Account × Stdin :=
  match s.promptPin env.policy with
  | (.error e, s) => (.error e, acc, s)
  | (.ok new, s) =>
    match acc.deletePinWithAuth uid current env.policy.maxAttempts with
    | (.error e, acc) => (.error e, acc, s)
    | (.ok .success, acc) =>
      ((acc.setupPin uid new env.policy.maxAttempts).1,
        (acc.setupPin uid new env.policy.maxAttempts).2, s)
    | (.ok result, acc) => (.error (.cannotDeletePin result), acc, s)

def changeOwnPin (acc : Account) (s : Stdin) : PinResult Unit × Account × Stdin :=
  match s.promptPin env.policy with
  | (.error e, s) => (.error e, acc, s)
  | (.ok current, s) =>
    match acc.verifyPin uid current env.policy.maxAttempts with
    | (.error e, acc) => (.error e, acc, s)
    | (.ok (.invalid locked), acc) => (.error (.incorrectPin locked), acc, s)
    | (.ok .lockedOut, acc) => (.error .pinIsLocked, acc, s)
    | (.ok (.success _), acc) => replacePin env uid current acc s

def changeAnyPin (acc : Account) (s : Stdin) : PinResult Unit × Account × Stdin :=
  match s.promptPin env.policy with
  | (.error e, s) => (.error e, acc, s)
  | (.ok new, s) =>
    match acc.deletePinAdmin uid with
    | (.error e, acc) => (.error e, acc, s)
    | (.ok (), acc) =>
      ((acc.setupPin uid new env.policy.maxAttempts).1,
        (acc.setupPin uid new env.policy.maxAttempts).2, s)

def changePin (acc : Account) (s : Stdin) : PinResult Unit × Account × Stdin :=
  if ¬ env.canManagePin uid then (.error .permissionDenied, acc, s)
  else
    match acc.slot.data.map AttemptInfo.fromPinData with
    | none => (.error .noPinSet, acc, s)
    | some info =>
      if env.uid ≠ 0 then if info.locked then (.error .pinIsLocked, acc, s)
        else changeOwnPin env uid acc s
      else changeAnyPin env uid acc s

def deleteOwnPin (acc : Account) (s : Stdin) : PinResult Unit × Account × Stdin :=
  match s.promptPin env.policy with
  | (.error e, s) => (.error e, acc, s)
  | (.ok pin, s) =>
    ((acc.deletePinWithAuth uid pin env.policy.maxAttempts).1.map fun _ => (),
      (acc.deletePinWithAuth uid pin env.policy.maxAttempts).2, s)

def deletePin (acc : Account) (s : Stdin) : PinResult Unit × Account × Stdin :=
  if env.uid ≠ 0 ∧ env.uid ≠ uid then (.error .permissionDenied, acc, s)
  else
    match acc.slot.data.map AttemptInfo.fromPinData with
    | none => (.error .noPinSet, acc, s)
    | some info =>
      if env.uid ≠ 0 ∧ info.locked then (.error .pinIsLocked, acc, s)
      else if env.uid = 0 then ((acc.deletePinAdmin uid).1, (acc.deletePinAdmin uid).2, s)
      else deleteOwnPin env uid acc s

def testPin (acc : Account) (s : Stdin) : PinResult Unit × Account × Stdin :=
  if ¬ env.canAttemptPin uid then (.error .permissionDenied, acc, s)
  else
    match acc.slot.data.map AttemptInfo.fromPinData with
    | none => (.error .noPinSet, acc, s)
    | some info =>
      if info.locked then (.error .pinIsLocked, acc, s)
      else
        match s.promptPin env.policy with
        | (.error e, s) => (.error e, acc, s)
        | (.ok pin, s) =>
          match acc.verifyPin uid pin env.policy.maxAttempts with
          | (.error e, acc) => (.error e, acc, s)
          | (.ok (.success _), acc) => (.ok (), acc, s)
          | (.ok (.invalid locked), acc) => (.error (.incorrectPin locked), acc, s)
          | (.ok .lockedOut, acc) => (.error .pinIsLocked, acc, s)

end Machine

/-! ## Refinement -/

/-- The process on a given input. -/
abbrev process (ops : KeyOps) : Handler UtilCmd (Tpm × Stdin) := Tpm.exec.sum (Stdin.handler ops)

/-- A program whose run is a function of the account and the input. -/
def Refines {uid : UInt32} (ops : KeyOps) (serves : Serves uid) (x : UtilM Unit)
    (f : Account → Stdin → PinResult Unit × Account × Stdin) : Prop :=
  ∀ (t : Tpm) (acc : Account) (s : Stdin), exec (process ops) x (t.put serves acc, s) =
    ((f acc s).1, t.put serves (f acc s).2.1, (f acc s).2.2)

section Refinement

variable {ops : KeyOps} {env : Env} {uid : UInt32} {serves : Serves uid} {t : Tpm} {acc : Account}
  {s : Stdin} {username : Str}

theorem exec_manage {α : Type} {x : PinM α} :
    exec (process ops) (manage x) (t, s) = ((exec Tpm.exec x t).1, (exec Tpm.exec x t).2, s) := exec_inl

theorem exec_readLine : exec (process ops) readLine (t, s) = (s.readLine.1, t, s.readLine.2) := by
  obtain ⟨input, console⟩ := s
  match input with
  | [] => rfl
  | .ok line :: rest => rfl
  | .error err :: rest => rfl

theorem exec_getAttemptInfo : exec (process ops) (Util.getAttemptInfo uid) (t.put serves acc, s) =
    (.ok (acc.slot.data.map AttemptInfo.fromPinData), t.put serves acc, s) := by
  unfold Util.getAttemptInfo
  rw [exec_bind, exec_manage, exec_getPinSlot]
  rfl

theorem exec_getAttemptCount : exec (process ops) (manage (getAttemptCount uid)) (t.put serves acc, s) =
    (.ok (acc.slot.data.map (·.pinCount.toUInt32)), t.put serves acc, s) := by
  rw [exec_manage, getAttemptCount_eq, exec_bind, exec_getPinSlot]
  cases acc.slot.data <;> rfl

@[simp] theorem manager_limit : env.manager.policy.maxAttempts = env.policy.maxAttempts := rfl

theorem exec_newManager :
    exec (process ops) (Util.newManager env) (t, s) = (.ok env.manager, t, s) := rfl

@[simp] theorem exec_human {text : Text} :
    exec (process ops) (Util.human env text) (t, s) = (.ok (), t, s) := by
  unfold Util.human
  split <;> rfl

/-- A prompt at a terminal, with what it shows, takes a line as in machine mode. -/
theorem exec_promptPin {prompt : Text} {attempts : Option (UInt32 × UInt32)} :
    exec (process ops) (Util.promptPin env prompt attempts) (t, s) =
      ((s.promptPin env.policy).1, t, (s.promptPin env.policy).2) := by
  have told : ∀ text : Text, exec (process ops) (tell text : UtilM Unit) (t, s) = (.ok (), t, s) :=
    fun _ => rfl
  have flushed : exec (process ops) flush (t, s) = (.ok (), t, s) := rfl
  have echoed : ∀ on s, exec (process ops) (echo on) (t, s) = (.ok (), t, s) := fun _ _ => rfl
  unfold Util.promptPin Stdin.promptPin
  split
  · rw [exec_bind, exec_readLine]
    cases s.readLine.1 <;> rfl
  · simp only [exec_bind, told, flushed, echoed, exec_attempt, exec_readLine]
    cases s.readLine.1 <;> rfl

theorem exec_confirmed {prompt again : Text} :
    exec (process ops) (Util.confirmedPin env prompt again) (t, s) =
    ((s.confirmedPin env).1, t, (s.confirmedPin env).2) := by
  unfold Util.confirmedPin Stdin.confirmedPin
  rw [exec_bind, exec_promptPin]
  rcases s.promptPin env.policy with ⟨e | pin, s⟩
  · rfl
  dsimp only
  split
  · rfl
  rw [exec_bind, exec_promptPin]
  rcases s.promptPin env.policy with ⟨e | confirm, s⟩
  · rfl
  dsimp only
  split <;> rfl

variable (machine : env.machine = true)
include machine

theorem exec_confirmedPin {prompt again : Text} :
    exec (process ops) (Util.confirmedPin env prompt again) (t, s) =
    ((s.promptPin env.policy).1, t, (s.promptPin env.policy).2) := by
  have once : s.confirmedPin env = s.promptPin env.policy := by
    unfold Stdin.confirmedPin
    simp only [machine, if_true]
    split <;> simp_all
  rw [exec_confirmed, once]

theorem human_machine {text : Text} : Util.human env text = pure () := if_pos machine

theorem setupPin_refines (resolved : env.getUidFromUsername username = .ok uid) :
    Refines ops serves (Util.setupPin env username) (Machine.setupPin env uid) := by
  intro t acc s
  unfold Util.setupPin Machine.setupPin
  rw [resolved, ofResult_ok_bind]
  split
  · rfl
  rw [exec_bind, exec_newManager]
  dsimp only
  rw [exec_bind, exec_attempt, exec_getAttemptCount]
  dsimp only
  cases acc.slot.data with
  | some data => rfl
  | none =>
    simp only [Option.map_none, Option.isSome_none, Bool.false_eq_true, if_false, exec_bind,
      exec_confirmedPin machine,
      human_machine machine]
    rcases s.promptPin env.policy with ⟨e | pin, s⟩
    · rfl
    · dsimp only
      rw [exec_manage, exec_setupPin, manager_limit]
      cases (acc.setupPin uid pin env.policy.maxAttempts).1 <;> rfl

theorem replacePin_refines {current : Pin} {m : PinManager} (same : m = env.manager) :
    Refines ops serves (do
        manage m.restartContext
        let newPin ← Util.confirmedPin env .newPin .confirm
        match ← manage (m.deletePinWithAuth uid current) with
        | .success => do
          manage (m.setupPin uid newPin)
          Util.human env (.pinChangedForUser username)
        | result => throw (.cannotDeletePin result)) (Machine.replacePin env uid current) := by
  subst same
  intro t acc s
  unfold Machine.replacePin
  have restart :
      ∀ t s, exec (process ops) (manage env.manager.restartContext) (t, s) = (.ok (), t, s) :=
      fun _ _ => rfl
  rw [exec_bind, restart]
  dsimp only
  rw [exec_bind, exec_confirmedPin machine]
  rcases s.promptPin env.policy with ⟨e | new, s⟩
  · rfl
  dsimp only
  rw [exec_bind, exec_manage, exec_deletePinWithAuth, manager_limit]
  rcases acc.deletePinWithAuth uid current env.policy.maxAttempts with ⟨e | (_ | locked | _), acc⟩
  · rfl
  · dsimp only
    rw [exec_bind, exec_manage, exec_setupPin, human_machine machine, manager_limit]
    cases (acc.setupPin uid new env.policy.maxAttempts).1 <;> rfl
  · rfl
  · rfl

theorem changePin_refines (resolved : env.getUidFromUsername username = .ok uid) :
    Refines ops serves (Util.changePin env username) (Machine.changePin env uid) := by
  intro t acc s
  unfold Util.changePin Machine.changePin
  rw [resolved, ofResult_ok_bind]
  split
  · rfl
  rw [exec_bind, exec_newManager]
  dsimp only
  rw [exec_bind, exec_getAttemptInfo]
  dsimp only
  cases acc.slot.data with
  | none => rfl
  | some data =>
    have restart :
        ∀ t s, exec (process ops) (manage env.manager.restartContext) (t, s) = (.ok (), t, s) :=
        fun _ _ => rfl
    dsimp only [Option.map]
    rw [exec_bind, restart]
    dsimp only
    split
    · unfold Util.changeOwnPin Machine.changeOwnPin
      split
      · rfl
      rw [exec_bind, exec_promptPin]
      rcases s.promptPin env.policy with ⟨e | current, s⟩
      · rfl
      dsimp only
      rw [exec_bind, exec_manage, exec_verifyPin, manager_limit]
      rcases acc.verifyPin uid current env.policy.maxAttempts with ⟨e | (slot | locked | _), acc⟩
      · rfl
      · exact replacePin_refines machine rfl t acc s
      · rfl
      · rfl
    · unfold Util.changeAnyPin Machine.changeAnyPin
      rw [exec_bind, exec_confirmedPin machine]
      rcases s.promptPin env.policy with ⟨e | new, s⟩
      · rfl
      dsimp only
      rw [exec_bind, exec_manage, exec_deletePinAdmin]
      rcases acc.deletePinAdmin uid with ⟨e | _, acc⟩
      · rfl
      dsimp only
      rw [exec_bind, exec_manage, exec_setupPin, human_machine machine, manager_limit]
      cases (acc.setupPin uid new env.policy.maxAttempts).1 <;> rfl

theorem deletePin_refines (resolved : env.getUidFromUsername username = .ok uid) :
    Refines ops serves (Util.deletePin env username) (Machine.deletePin env uid) := by
  intro t acc s
  unfold Util.deletePin Machine.deletePin
  rw [resolved, ofResult_ok_bind]
  split
  · rfl
  rw [exec_bind, exec_newManager]
  dsimp only
  rw [exec_bind, exec_getAttemptInfo]
  dsimp only
  cases acc.slot.data with
  | none => rfl
  | some data =>
    dsimp only [Option.map]
    split
    · rfl
    split
    · unfold Util.deleteAnyPin
      simp only [machine, if_true, pure_bind, not_true, if_false, human_machine machine]
      rw [exec_bind, exec_attempt, exec_manage, exec_deletePinAdmin]
      cases (acc.deletePinAdmin uid).1 <;> rfl
    · unfold Util.deleteOwnPin Machine.deleteOwnPin
      rw [exec_bind, exec_promptPin]
      rcases s.promptPin env.policy with ⟨e | pin, s⟩
      · rfl
      dsimp only
      rw [exec_bind, exec_manage, exec_deletePinWithAuth, manager_limit]
      simp only [human_machine machine]
      cases (acc.deletePinWithAuth uid pin env.policy.maxAttempts).1 <;> rfl

theorem testPin_refines (resolved : env.getUidFromUsername username = .ok uid) :
    Refines ops serves (Util.testPin env username) (Machine.testPin env uid) := by
  intro t acc s
  unfold Util.testPin Machine.testPin
  rw [resolved, ofResult_ok_bind]
  split
  · rfl
  rw [exec_bind, exec_newManager]
  dsimp only
  rw [exec_bind, exec_getAttemptInfo]
  dsimp only
  cases acc.slot.data with
  | none =>
    rw [human_machine machine]
    rfl
  | some data =>
    dsimp only [Option.map]
    split
    · rw [human_machine machine]
      rfl
    rw [exec_bind, exec_promptPin]
    rcases s.promptPin env.policy with ⟨e | pin, s⟩
    · rfl
    dsimp only
    rw [exec_bind, exec_manage, exec_verifyPin, manager_limit]
    rcases acc.verifyPin uid pin env.policy.maxAttempts with ⟨e | (slot | locked | _), acc⟩
    all_goals rfl

theorem exec_showStatus (resolved : env.getUidFromUsername username = .ok uid) :
    exec (process ops) (Util.showStatus env username) (t.put serves acc, s) =
      (.ok (acc.slot.data.map AttemptInfo.fromPinData), t.put serves acc, s) := by
  unfold Util.showStatus
  rw [resolved, ofResult_ok_bind, exec_bind, exec_newManager]
  dsimp only
  rw [human_machine machine, pure_bind, exec_bind, exec_getAttemptInfo]
  dsimp only
  cases acc.slot.data with
  | none =>
    simp only [Option.map_none, human_machine machine]
    rfl
  | some data =>
    simp only [Option.map_some, human_machine machine]
    rfl

/-- The result of a command is printed, and its kind is the exit status. -/
theorem exec_report {α : Type} [Serialize α] {x : UtilM α} :
    exec (process ops) (Util.report env x) (t, s) =
    (reportExit (exec (process ops) x (t, s)).1, (exec (process ops) x (t, s)).2.1,
      { (exec (process ops) x (t, s)).2.2 with
        console := (exec (process ops) x (t, s)).2.2.console.prints
          (toJson (exec (process ops) x (t, s)).1) }) := by
  unfold Util.report
  rw [exec_bind, exec_attempt]
  dsimp only
  unfold Util.handleResult
  rw [if_pos machine]
  rcases exec (process ops) x (t, s) with ⟨e | _, t', s'⟩ <;> rfl

end Refinement

end Pinpam
