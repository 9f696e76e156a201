import Pinpam.Core.Credential
import Pinpam.Effect.Service
import Pinpam.Util.Remaining
import Pinpam.Util.Reports

/-!
# The registry of PINs

What pinutil is for: a credential for each user, and five commands on it. In machine mode
every run of commands, by whatever callers on whatever users, is answered as by the
registry, and the TPM holds its credentials.
-/

namespace Pinpam
set_option autoImplicit false
open Pinpam.Effect Pinpam.Effect.Fallible

/-- The credentials of the users. -/
abbrev Registry := UInt32 → Option Credential

/-- The PIN on a line of the input; past its end the lines are empty. -/
def typedPin (policy : PinPolicy) (input : List (Except Str Str)) (n : Nat) : PinResult Pin :=
  match input[n]? with
  | some (.ok line) => Pin.new line policy
  | some (.error err) => .error (.ioError err)
  | none => Pin.new [] policy

/-- A policy that lets the TPM hold every PIN that it accepts, and count the attempts. -/
structure PinPolicy.Sane (policy : PinPolicy) : Prop where
  bounded : ∃ most, policy.maxLength = some most ∧ most ≤ authValueMax
  positive : 0 < policy.maxAttempts.toNat
  low : policy.maxAttempts.toNat < 2 ^ 31

namespace Registry

variable (env : Env) (uid : UInt32) (typed : Nat → PinResult Pin)

/-- Who may ask for the command on the user. -/
def permits : UserCommand → Bool
  | .test => env.canAttemptPin uid
  | _ => env.canManagePin uid

/-- What an attempt that does not succeed is answered with. -/
def missed : Entrance → PinError
  | .shut => .incorrectPin true
  | _ => .incorrectPin false

/-- A credential for the PIN on a line. -/
def enroll (n : Nat) (otherwise : Option Credential) : PinResult Unit × Option Credential :=
  match typed n with
  | .error err => (.error err, otherwise)
  | .ok pin => (.ok (), some (.fresh pin env.policy.maxAttempts))

/-- The PIN on the first line is tried, and what follows depends on it. -/
def tried (e : Credential) (opened : Credential → PinResult Unit × Option Credential)
    (failed : Entrance → PinResult Unit) :
    PinResult Unit × Option Credential :=
  if e.shut then (.error .pinIsLocked, some e)
  else
    match typed 0 with
    | .error err => (.error err, some e)
    | .ok pin =>
      if (e.attempt pin env.policy.maxAttempts).1 = .opened then
        opened (e.attempt pin env.policy.maxAttempts).2
      else (failed (e.attempt pin env.policy.maxAttempts).1,
        some (e.attempt pin env.policy.maxAttempts).2)

/-- A command by someone who may. Root has no PIN to enter; a user who deletes is not told
that the PIN was wrong. -/
def perform : UserCommand → Option Credential → PinResult Unit × Option Credential
  | .setup, none => enroll env typed 0 none
  | .setup, some e => (.error .pinAlreadySet, some e)
  | _, none => (.error .noPinSet, none)
  | .change, some e =>
    if env.uid = 0 then enroll env typed 0 (some e)
    else tried env typed e (fun e => enroll env typed 1 (some e)) fun result => .error (missed result)
  | .delete, some e =>
    if env.uid = 0 then (.ok (), none) else tried env typed e (fun _ => (.ok (), none)) fun _ => .ok ()
  | .test, some e => tried env typed e (fun e => (.ok (), some e)) fun result => .error (missed result)

def serve (command : UserCommand) (held : Option Credential) : PinResult Unit × Option Credential :=
  if ¬ permits env uid command then (.error .permissionDenied, held)
  else if ¬ Serves uid then (.error (.uidOverflow uid), held)
  else perform env typed command held

/-- The attempts at a credential. -/
def info (e : Credential) : AttemptInfo := ⟨.ofNat e.gate.used, .ofNat e.gate.limit⟩

def status (held : Option Credential) : PinResult (Option AttemptInfo) :=
  if ¬ Serves uid then .error (.uidOverflow uid) else .ok (held.map info)

end Registry

/-! ## Runs of pinutil -/

/-- A run of pinutil: one of the commands, or the status query. -/
structure Errand where
  env : Env
  command : Option UserCommand
  username : Option Str
  input : List (Except Str Str)

/-- The exit status, and what is printed. -/
structure Response where
  status : Nat
  printed : List Json

namespace Errand

def commands (errand : Errand) : Commands :=
  match errand.command with
  | some command => command.named errand.username
  | none => .status errand.username

/-- The run of `main`. -/
def run (ops : KeyOps) (keys : KeyStore) : Service Errand Tpm Response := fun errand t =>
  let out := exec (process ops) (Util.main errand.env errand.commands)
    (t, ⟨errand.input, .start keys⟩)
  (⟨exitStatus out.1, out.2.2.console.printed⟩, out.2.1)

/-- The user that it is about. -/
def whose (errand : Errand) : Option UInt32 :=
  (errand.env.resolveUsername errand.username).toOption.bind errand.env.uidOf

/-- A result is printed, and its kind is the exit status. -/
def reports {α : Type} [Serialize α] (r : PinResult α) : Response := ⟨exitStatus (reportExit r), [toJson r]⟩

/-- The answer where there is no such user, or the caller has no name. -/
def nobody (errand : Errand) : Response :=
  match errand.env.resolveUsername errand.username with
  | .error _ => ⟨1, []⟩
  | .ok _ => reports (.error .userNotFound : PinResult Unit)

/-- The errand at the registry. -/
def atRegistry (uid : UInt32) : Service Errand (Option Credential) Response := fun errand held =>
  match errand.command with
  | some command =>
    let out := Registry.serve errand.env uid (typedPin errand.env.policy errand.input) command held
    (reports out.1, out.2)
  | none => (reports (Registry.status uid held), held)

/-- In machine mode, under a sane policy. -/
structure Valid (errand : Errand) : Prop where
  machine : errand.env.machine = true
  sane : errand.env.policy.Sane

end Errand

/-- All users' errands at the registry. -/
def Registry.service : Service Errand Registry Response :=
  Service.beside Errand.whose Errand.atRegistry Errand.nobody

/-- The TPM holds the credentials. -/
def Tpm.Carries (t : Tpm) (registry : Registry) : Prop := ∀ uid (serves : Serves uid), ∃ acc,
  t.Shows serves acc ∧ acc.Regular ∧ acc.credential = registry uid

section Accounts

variable {env : Env} {uid : UInt32} {acc : Account} {e : Credential} {pin : Pin} {s s' : Stdin}
  {policy : PinPolicy} {input : List (Except Str Str)} {n : Nat} {a : Auth} {c : PinCounters}

theorem typedPin_tail : typedPin policy input.tail n = typedPin policy input (n + 1) := by
  unfold typedPin
  rw [List.getElem?_tail]

theorem promptPin_typed : ∃ s', s.promptPin policy = (typedPin policy s.input 0, s') ∧
    s'.input = s.input.tail := by
  obtain ⟨input, console⟩ := s
  match input with
  | [] => exact ⟨_, rfl, rfl⟩
  | .ok line :: rest => exact ⟨_, rfl, rfl⟩
  | .error err :: rest => exact ⟨_, rfl, rfl⟩

/-- The TPM holds what a sane policy accepts. -/
theorem PinPolicy.Sane.short (sane : policy.Sane) (made : typedPin policy input n = .ok pin) :
    (asBytes pin.str).length ≤ authValueMax := by
  have accepted : ∀ line, Pin.new line policy = .ok pin → (asBytes pin.str).length ≤ authValueMax := by
    intro line made
    obtain ⟨most, bound, fits⟩ := sane.bounded
    obtain ⟨valid, spelled⟩ := Pin.new_eq_ok.1 made
    have within := (validate_ok_iff.1 valid).2.2 most bound
    rw [← spelled] at within
    omega
  unfold typedPin at made
  split at made
  · exact accepted _ made
  · cases made
  · exact accepted _ made

/-- The attempts that a caller is shown. -/
theorem info_credential (regular : acc.Regular) (slot : acc.slot = .written a c) :
    AttemptInfo.fromPinData c.data = ⟨.ofNat c.gate.used, .ofNat c.gate.limit⟩ := by
  have low := regular.sound.low a c slot
  have within := regular.within a c slot
  rw [fromPinData_low (by omega) low]
  simp [PinCounters.gate]

theorem info_shut (regular : acc.Regular) (slot : acc.slot = .written a c) :
    (AttemptInfo.fromPinData c.data).locked = decide (c.gate.limit ≤ c.gate.used) := by
  have low := regular.sound.low a c slot
  have within := regular.within a c slot
  have positive := regular.positive a c slot
  rw [fromPinData_low (by omega) low, AttemptInfo.locked]
  refine decide_eq_decide.2 ⟨fun ⟨_, reached⟩ => UInt32.le_iff_toNat_le.1 reached, fun reached => ?_⟩
  exact ⟨UInt32.lt_iff_toNat_lt.2 positive, UInt32.le_iff_toNat_le.2 reached⟩

/-- What is reported to the callers. -/
theorem data_credential (regular : acc.Regular) :
    acc.slot.data.map AttemptInfo.fromPinData = acc.credential.map Registry.info := by
  obtain ⟨slot, tag⟩ := acc
  cases slot with
  | absent => rfl
  | unwritten a => rfl
  | written a c => exact congrArg some (info_credential regular rfl)

theorem info_locked_iff (regular : acc.Regular) (held : acc.credential = some e) :
    (Registry.info e).locked = decide e.shut := by
  obtain ⟨c, slot, gate, -⟩ := credential_some held
  have shown := info_shut regular slot
  rw [info_credential regular slot, gate] at shown
  exact shown

/-- What is returned, and what is left of the account, is what the registry says. -/
structure Agrees (out : PinResult Unit × Account × Stdin)
    (answer : PinResult Unit × Option Credential) : Prop where
  result : out.1 = answer.1
  regular : out.2.1.Regular
  credential : out.2.1.credential = answer.2

theorem present_of_credential (held : acc.credential = some e) : acc.slot ≠ .absent := by
  obtain ⟨c, slot, -⟩ := credential_some held
  rw [slot]
  intro no
  cases no

theorem setupPin_absent (absent : acc.slot = .absent)
    (short : (asBytes pin.str).length ≤ authValueMax) :
    acc.setupPin uid pin policy.maxAttempts =
    (.ok (), ⟨.written pin.auth ⟨0, policy.maxAttempts⟩, .version PIN_VERSION_CURRENT⟩) :=
  setupPin_stored (by rw [absent]; rfl) (absent ▸ refusal_short short)

/-- A PIN that is set up where there is none. -/
theorem agrees_fresh (sane : policy.Sane) : Agrees
    (.ok (), ⟨.written pin.auth ⟨0, policy.maxAttempts⟩, .version PIN_VERSION_CURRENT⟩, s)
    (.ok (), some (.fresh pin policy.maxAttempts)) :=
  ⟨rfl, regular_fresh sane.positive sane.low, rfl⟩

theorem setup_agrees (regular : acc.Regular) (sane : env.policy.Sane)
    (may : env.canManagePin uid = true) :
    Agrees (Machine.setupPin env uid acc s)
      (Registry.perform env (typedPin env.policy s.input) .setup acc.credential) := by
  unfold Machine.setupPin
  rw [if_neg (not_not.2 may)]
  cases held : acc.credential with
  | some e =>
    obtain ⟨c, slot, -⟩ := credential_some held
    rw [slot]
    exact ⟨rfl, regular, held⟩
  | none =>
    have absent := regular.absent held
    obtain ⟨s', entered, -⟩ := @promptPin_typed s env.policy
    simp only [absent, SlotState.data, Option.isSome_none, Bool.false_eq_true, if_false, entered,
      Registry.perform, Registry.enroll]
    cases made : typedPin env.policy s.input 0 with
    | error err => exact ⟨rfl, regular, held⟩
    | ok pin =>
      dsimp only
      rw [setupPin_absent absent (sane.short made)]
      exact agrees_fresh sane

/-- A new PIN takes the place of the one that is verified. -/
theorem replace_agrees (regular : acc.Regular) (sane : env.policy.Sane)
    (accepts : acc.Accepts pin c) (short : (asBytes pin.str).length ≤ authValueMax)
    (held : acc.credential = some e) :
    Agrees (Machine.replacePin env uid pin acc s)
      (Registry.enroll env (typedPin env.policy s.input) 0 (some e)) := by
  obtain ⟨s', entered, -⟩ := @promptPin_typed s env.policy
  simp only [Machine.replacePin, entered, Registry.enroll]
  cases made : typedPin env.policy s.input 0 with
  | error err => exact ⟨rfl, regular, held⟩
  | ok new =>
    dsimp only
    rw [deletePinWithAuth_accepted short accepts]
    dsimp only
    rw [setupPin_absent rfl (sane.short made)]
    exact agrees_fresh sane

theorem changeOwn_agrees (regular : acc.Regular) (sane : env.policy.Sane)
    (held : acc.credential = some e) (open_ : ¬ e.shut) :
    Agrees (Machine.changeOwnPin env uid acc s)
      (Registry.tried env (typedPin env.policy s.input) e
        (fun e => Registry.enroll env (typedPin env.policy s.input) 1 (some e))
        fun result => .error (Registry.missed result)) := by
  obtain ⟨s', entered, rest⟩ := @promptPin_typed s env.policy
  simp only [Machine.changeOwnPin, entered, Registry.tried, if_neg open_]
  cases made : typedPin env.policy s.input 0 with
  | error err => exact ⟨rfl, regular, held⟩
  | ok pin =>
    dsimp only
    have short := sane.short made
    obtain ⟨v, acc', verified, told, kept, left, again⟩ :=
      @verifyPin_attempt uid env.policy.maxAttempts acc pin e regular held open_ short sane.positive
        sane.low
    rw [verified]
    rcases attempted : e.attempt pin env.policy.maxAttempts with ⟨result, e'⟩
    rw [attempted] at told left again
    cases told with
    | opened data =>
      obtain ⟨c, accepts⟩ := again rfl
      have replaced := @replace_agrees env uid acc' e' pin s' c kept sane accepts short left
      simp only [Registry.enroll, rest, typedPin_tail] at replaced
      exact replaced
    | rejected => exact ⟨rfl, kept, left⟩
    | shut => exact ⟨rfl, kept, left⟩

theorem change_agrees (regular : acc.Regular) (sane : env.policy.Sane)
    (may : env.canManagePin uid = true) :
    Agrees (Machine.changePin env uid acc s)
      (Registry.perform env (typedPin env.policy s.input) .change acc.credential) := by
  unfold Machine.changePin
  rw [if_neg (not_not.2 may), data_credential regular]
  cases held : acc.credential with
  | none => exact ⟨rfl, regular, held⟩
  | some e =>
    simp only [Option.map_some, Registry.perform, info_locked_iff regular held]
    by_cases root : env.uid = 0
    · rw [if_neg (not_not.2 root), if_pos root]
      obtain ⟨s', entered, -⟩ := @promptPin_typed s env.policy
      simp only [Machine.changeAnyPin, entered, Registry.enroll]
      cases made : typedPin env.policy s.input 0 with
      | error err => exact ⟨rfl, regular, held⟩
      | ok new =>
        dsimp only
        rw [deletePinAdmin_present (present_of_credential held)]
        dsimp only
        rw [setupPin_absent rfl (sane.short made)]
        exact agrees_fresh sane
    · rw [if_pos root, if_neg root]
      by_cases shut : e.shut
      · simp only [Registry.tried, shut, decide_true, if_true]
        exact ⟨rfl, regular, held⟩
      · simp only [shut, decide_false, Bool.false_eq_true, if_false]
        exact changeOwn_agrees regular sane held shut

theorem delete_agrees (regular : acc.Regular) (sane : env.policy.Sane)
    (may : env.canManagePin uid = true) :
    Agrees (Machine.deletePin env uid acc s)
      (Registry.perform env (typedPin env.policy s.input) .delete acc.credential) := by
  have manages : ¬ (env.uid ≠ 0 ∧ env.uid ≠ uid) := by
    simpa [Env.canManagePin, or_iff_not_imp_left] using may
  unfold Machine.deletePin
  rw [if_neg manages, data_credential regular]
  cases held : acc.credential with
  | none => exact ⟨rfl, regular, held⟩
  | some e =>
    simp only [Option.map_some, Registry.perform, info_locked_iff regular held, decide_eq_true_eq]
    by_cases root : env.uid = 0
    · rw [if_neg fun both => both.1 root, if_pos root, if_pos root]
      rw [deletePinAdmin_present (present_of_credential held)]
      exact ⟨rfl, regular_absent (.inl rfl), rfl⟩
    · simp only [root, not_false_eq_true, true_and, if_false, Registry.tried, ne_eq]
      by_cases shut : e.shut
      · simp only [shut, if_true]
        exact ⟨rfl, regular, held⟩
      · obtain ⟨s', entered, -⟩ := @promptPin_typed s env.policy
        simp only [shut, if_false, Machine.deleteOwnPin, entered]
        cases made : typedPin env.policy s.input 0 with
        | error err => exact ⟨rfl, regular, held⟩
        | ok pin =>
          obtain ⟨v, acc', verified, told, kept, left, -⟩ :=
            @verifyPin_attempt uid env.policy.maxAttempts acc pin e regular held shut
              (sane.short made) sane.positive sane.low
          dsimp only [Account.deletePinWithAuth]
          rw [verified]
          rcases attempted : e.attempt pin env.policy.maxAttempts with ⟨result, e'⟩
          rw [attempted] at told left
          cases told with
          | opened data =>
            dsimp only
            rw [deletePinAdmin_present (present_of_credential left)]
            exact ⟨rfl, regular_absent (.inl rfl), rfl⟩
          | rejected => exact ⟨rfl, kept, left⟩
          | shut => exact ⟨rfl, kept, left⟩

theorem test_agrees (regular : acc.Regular) (sane : env.policy.Sane)
    (may : env.canAttemptPin uid = true) :
    Agrees (Machine.testPin env uid acc s)
      (Registry.perform env (typedPin env.policy s.input) .test acc.credential) := by
  unfold Machine.testPin
  rw [if_neg (not_not.2 may), data_credential regular]
  cases held : acc.credential with
  | none => exact ⟨rfl, regular, held⟩
  | some e =>
    simp only [Option.map_some, Registry.perform, info_locked_iff regular held, Registry.tried,
      decide_eq_true_eq]
    by_cases shut : e.shut
    · simp only [shut, if_true]
      exact ⟨rfl, regular, held⟩
    · obtain ⟨s', entered, -⟩ := @promptPin_typed s env.policy
      simp only [shut, if_false, entered]
      cases made : typedPin env.policy s.input 0 with
      | error err => exact ⟨rfl, regular, held⟩
      | ok pin =>
        obtain ⟨v, acc', verified, told, kept, left, -⟩ :=
          @verifyPin_attempt uid env.policy.maxAttempts acc pin e regular held shut (sane.short made)
            sane.positive sane.low
        dsimp only
        rw [verified]
        rcases attempted : e.attempt pin env.policy.maxAttempts with ⟨result, e'⟩
        rw [attempted] at told left
        cases told with
        | opened data => exact ⟨rfl, kept, left⟩
        | rejected => exact ⟨rfl, kept, left⟩
        | shut => exact ⟨rfl, kept, left⟩

/-- The command on the account of its user. -/
theorem onAccount_agrees {command : UserCommand} (serves : Serves uid) (regular : acc.Regular)
    (sane : env.policy.Sane) :
    Agrees (command.onAccount env uid acc s)
      (Registry.serve env uid (typedPin env.policy s.input) command acc.credential) := by
  unfold Registry.serve
  by_cases may : Registry.permits env uid command = true
  · rw [if_neg (not_not.2 may), if_neg (not_not.2 serves)]
    cases command with
    | setup => exact setup_agrees regular sane may
    | change => exact change_agrees regular sane may
    | delete => exact delete_agrees regular sane may
    | test => exact test_agrees regular sane may
  · rw [if_pos may]
    have denied : command.onAccount env uid acc s = (.error .permissionDenied, acc, s) := by
      cases command with
      | setup => exact if_pos may
      | change => exact if_pos may
      | delete =>
        have others : env.uid ≠ 0 ∧ env.uid ≠ uid := by
          simpa [Registry.permits, Env.canManagePin] using may
        exact if_pos others
      | test => exact if_pos may
    rw [denied]
    exact ⟨rfl, regular, rfl⟩

end Accounts

/-! ## Whole runs -/

section Runs

variable {ops : KeyOps} {keys : KeyStore} {env : Env} {uid : UInt32} {name : Str} {t t' : Tpm}
  {s : Stdin} {command : UserCommand} {errand : Errand} {registry : Registry}

/-- No account, no command. -/
theorem program_unfound (unfound : env.uidOf name = none) :
    exec (process ops) (command.program env name) (t, s) = (.error .userNotFound, t, s) := by
  have none_ : env.getUidFromUsername name = .error .userNotFound := by
    rw [Env.getUidFromUsername, unfound]
  cases command with
  | setup =>
    show exec (process ops) (Util.setupPin env name) (t, s) = _
    unfold Util.setupPin
    rw [none_]
    rfl
  | change =>
    show exec (process ops) (Util.changePin env name) (t, s) = _
    unfold Util.changePin
    rw [none_]
    rfl
  | delete =>
    show exec (process ops) (Util.deletePin env name) (t, s) = _
    unfold Util.deletePin
    rw [none_]
    rfl
  | test =>
    show exec (process ops) (Util.testPin env name) (t, s) = _
    unfold Util.testPin
    rw [none_]
    rfl

/-- Who may not ask is refused first. -/
theorem program_denied (found : env.uidOf name = some uid)
    (denied : ¬ Registry.permits env uid command = true) :
    exec (process ops) (command.program env name) (t, s) = (.error .permissionDenied, t, s) := by
  have resolved : env.getUidFromUsername name = .ok uid := by rw [Env.getUidFromUsername, found]
  cases command with
  | setup =>
    have others : ¬ env.canManagePin uid = true := denied
    show exec (process ops) (Util.setupPin env name) (t, s) = _
    unfold Util.setupPin
    rw [resolved, ofResult_ok_bind, if_pos others]
    rfl
  | change =>
    have others : ¬ env.canManagePin uid = true := denied
    show exec (process ops) (Util.changePin env name) (t, s) = _
    unfold Util.changePin
    rw [resolved, ofResult_ok_bind, if_pos others]
    rfl
  | delete =>
    have others : env.uid ≠ 0 ∧ env.uid ≠ uid := by
      simpa [Registry.permits, Env.canManagePin] using denied
    show exec (process ops) (Util.deletePin env name) (t, s) = _
    unfold Util.deletePin
    simp only [resolved, ofResult_ok_bind]
    rw [if_pos others]
    rfl
  | test =>
    have others : ¬ env.canAttemptPin uid = true := denied
    show exec (process ops) (Util.testPin env name) (t, s) = _
    unfold Util.testPin
    rw [resolved, ofResult_ok_bind, if_pos others]
    rfl

/-- And then whoever asks about a user without indices. -/
theorem program_past (past : ¬ Serves uid) (found : env.uidOf name = some uid)
    (may : Registry.permits env uid command = true) :
    exec (process ops) (command.program env name) (t, s) = (.error (.uidOverflow uid), t, s) := by
  have resolved : env.getUidFromUsername name = .ok uid := by rw [Env.getUidFromUsername, found]
  have manager : ∀ t s, exec (process ops) (Util.newManager env) (t, s) = (.ok env.manager, t, s) :=
    fun _ _ => rfl
  cases command with
  | setup =>
    have manages : env.canManagePin uid = true := may
    show exec (process ops) (Util.setupPin env name) (t, s) = _
    unfold Util.setupPin
    rw [resolved, ofResult_ok_bind, if_neg (not_not.2 manages), exec_bind, manager]
    dsimp only
    rw [getAttemptCount_eq, getPinSlot_overflow past]
    rfl
  | change =>
    have manages : env.canManagePin uid = true := may
    show exec (process ops) (Util.changePin env name) (t, s) = _
    unfold Util.changePin
    rw [resolved, ofResult_ok_bind, if_neg (not_not.2 manages), exec_bind, manager]
    dsimp only
    rw [exec_bind, exec_getAttemptInfo_overflow past]
  | delete =>
    have manages : ¬ (env.uid ≠ 0 ∧ env.uid ≠ uid) := by
      simpa [Registry.permits, Env.canManagePin, or_iff_not_imp_left] using may
    show exec (process ops) (Util.deletePin env name) (t, s) = _
    unfold Util.deletePin
    simp only [resolved, ofResult_ok_bind]
    rw [if_neg manages, exec_bind, manager]
    dsimp only
    rw [exec_bind, exec_getAttemptInfo_overflow past]
  | test =>
    have attempts : env.canAttemptPin uid = true := may
    show exec (process ops) (Util.testPin env name) (t, s) = _
    unfold Util.testPin
    rw [resolved, ofResult_ok_bind, if_neg (not_not.2 attempts), exec_bind, manager]
    dsimp only
    rw [exec_bind, exec_getAttemptInfo_overflow past]

/-- A run whose command prints nothing itself. -/
theorem run_reports {α : Type} [Serialize α] {x : Str → UtilM α} {r : PinResult α}
    (main : Util.main errand.env errand.commands = Util.onUser errand.env x errand.username)
    (machine : errand.env.machine = true)
    (known : errand.env.resolveUsername errand.username = .ok name)
    (ran : exec (process ops) (x name) (t, ⟨errand.input, .start keys⟩) = (r, t', s))
    (silent : s.console.printed = []) :
    errand.run ops keys t = (Errand.reports r, t') := by
  have named : Util.main errand.env errand.commands = Util.report errand.env (x name) := by
    rw [main, Util.onUser, known]
    rfl
  unfold Errand.run
  rw [named, exec_report machine, ran]
  simp only [Errand.reports, Console.prints, silent, List.nil_append]

theorem main_command (which : errand.command = some command) :
    Util.main errand.env errand.commands =
    Util.onUser errand.env (command.program errand.env) errand.username := by
  rw [Errand.commands, which]
  exact main_named

theorem main_status (which : errand.command = none) : Util.main errand.env errand.commands =
    Util.onUser errand.env (Util.showStatus errand.env) errand.username := by
  rw [Errand.commands, which]
  rfl

/-- The caller has no name. -/
theorem run_nameless {e : PinError} (unknown : errand.env.resolveUsername errand.username = .error e) :
    errand.run ops keys t = (⟨1, []⟩, t) := by
  have stops : ∀ {α : Type} [Serialize α] (x : Str → UtilM α),
      Util.main errand.env errand.commands = Util.onUser errand.env x errand.username →
      errand.run ops keys t = (⟨1, []⟩, t) := by
    intro α _ x main
    unfold Errand.run
    rw [main, Util.onUser, unknown]
    rfl
  cases which : errand.command with
  | none => exact stops _ (main_status which)
  | some command => exact stops _ (main_command which)

theorem showStatus_unfound (unfound : env.uidOf name = none) :
    exec (process ops) (Util.showStatus env name) (t, s) = (.error .userNotFound, t, s) := by
  unfold Util.showStatus Env.getUidFromUsername
  rw [unfound]
  rfl

theorem showStatus_past (machine : env.machine = true) (past : ¬ Serves uid)
    (found : env.uidOf name = some uid) :
    exec (process ops) (Util.showStatus env name) (t, s) = (.error (.uidOverflow uid), t, s) := by
  have manager : ∀ t s, exec (process ops) (Util.newManager env) (t, s) = (.ok env.manager, t, s) :=
    fun _ _ => rfl
  unfold Util.showStatus Env.getUidFromUsername
  rw [found, ofResult_ok_bind, exec_bind, manager]
  dsimp only
  rw [human_machine machine, pure_bind, exec_bind, exec_getAttemptInfo_overflow past]

/-- A user's account moves, and the others stay. -/
theorem Tpm.Carries.update {serves : Serves uid} {acc : Account} (carries : t.Carries registry)
    (regular : acc.Regular) :
    (t.put serves acc).Carries (Function.update registry uid acc.credential) := by
  intro uid' serves'
  by_cases same : uid' = uid
  · subst same
    exact ⟨acc, Tpm.put_shows, regular, by rw [Function.update_self]⟩
  · obtain ⟨acc', shows_, regular', held⟩ := carries uid' serves'
    refine ⟨acc', (put_shows_other same).2 shows_, regular', ?_⟩
    rw [held, Function.update_of_ne same]

/-- An errand about a user who has indices. -/
theorem served_errand {acc : Account} {serves : Serves uid} (valid : errand.Valid)
    (regular : acc.Regular) (known : errand.env.resolveUsername errand.username = .ok name)
    (found : errand.env.uidOf name = some uid) : ∃ acc' : Account,
    errand.run ops keys (t.put serves acc) =
      ((errand.atRegistry uid acc.credential).1, t.put serves acc') ∧
    acc'.Regular ∧ acc'.credential = (errand.atRegistry uid acc.credential).2 := by
  have resolved : errand.env.getUidFromUsername name = .ok uid := by
    rw [Env.getUidFromUsername, found]
  unfold Errand.atRegistry
  cases which : errand.command with
  | none =>
    refine ⟨acc, ?_, regular, rfl⟩
    have ran := @exec_showStatus ops errand.env uid serves t acc ⟨errand.input, .start keys⟩ name
      valid.machine resolved
    rw [data_credential regular] at ran
    dsimp only
    rw [Registry.status, if_neg (not_not.2 serves)]
    exact run_reports (main_status which) valid.machine known ran rfl
  | some command =>
    obtain ⟨result, kept, left⟩ := @onAccount_agrees errand.env uid acc
      ⟨errand.input, .start keys⟩ command serves regular valid.sane
    have refines : Refines ops serves (command.program errand.env name)
        (command.onAccount errand.env uid) := program_refines valid.machine resolved
    have ran := refines t acc ⟨errand.input, .start keys⟩
    refine ⟨_, ?_, kept, left⟩
    dsimp only at result ⊢
    rw [← result]
    exact run_reports (main_command which) valid.machine known ran onAccount_printed

/-- An errand about a user who has none. -/
theorem unserved_errand {held : Option Credential} (valid : errand.Valid) (past : ¬ Serves uid)
    (known : errand.env.resolveUsername errand.username = .ok name)
    (found : errand.env.uidOf name = some uid) :
    errand.run ops keys t = ((errand.atRegistry uid held).1, t) ∧
    (errand.atRegistry uid held).2 = held := by
  unfold Errand.atRegistry
  cases which : errand.command with
  | none =>
    refine ⟨?_, rfl⟩
    dsimp only
    rw [Registry.status, if_pos past]
    refine run_reports (main_status which) valid.machine known
      (showStatus_past valid.machine past found) ?_
    rfl
  | some command =>
    dsimp only
    unfold Registry.serve
    by_cases may : Registry.permits errand.env uid command = true
    · rw [if_neg (not_not.2 may), if_pos past]
      refine ⟨?_, rfl⟩
      refine run_reports (main_command which) valid.machine known (program_past past found may) ?_
      rfl
    · rw [if_pos may]
      refine ⟨?_, rfl⟩
      refine run_reports (main_command which) valid.machine known (program_denied found may) ?_
      rfl

/-- An errand about a user with an account. -/
theorem own_errand (valid : errand.Valid) (carries : t.Carries registry)
    (known : errand.env.resolveUsername errand.username = .ok name)
    (found : errand.env.uidOf name = some uid) :
    (errand.run ops keys t).1 = (errand.atRegistry uid (registry uid)).1 ∧
      (errand.run ops keys t).2.Carries
        (Function.update registry uid (errand.atRegistry uid (registry uid)).2) := by
  by_cases serves : Serves uid
  · obtain ⟨acc, shows_, regular, held⟩ := carries uid serves
    obtain ⟨acc', ran, kept, left⟩ :=
      @served_errand ops keys uid name t errand acc serves valid regular known found
    rw [shows_.eq_put] at ran
    rw [← held, ran, ← left]
    exact ⟨rfl, carries.update kept⟩
  · obtain ⟨ran, same⟩ :=
      @unserved_errand ops keys uid name t errand (registry uid) valid serves known found
    rw [ran, same, Function.update_eq_self]
    exact ⟨rfl, carries⟩

/-- One errand. -/
theorem errand_refines :
    Service.Refines (Errand.run ops keys) Registry.service Tpm.Carries Errand.Valid := by
  intro errand t registry valid carries
  cases known : errand.env.resolveUsername errand.username with
  | error e =>
    have nobodys : errand.whose = none := by rw [Errand.whose, known]; rfl
    rw [run_nameless known]
    simp only [Registry.service, Service.beside, nobodys, Errand.nobody, known]
    exact ⟨trivial, carries⟩
  | ok name =>
    have whose : errand.whose = errand.env.uidOf name := by rw [Errand.whose, known]; rfl
    cases found : errand.env.uidOf name with
    | none =>
      have refused : errand.run ops keys t =
          (Errand.reports (.error .userNotFound : PinResult Unit), t) := by
        cases which : errand.command with
        | none =>
          -- an error is printed alike, whatever the type of the result
          have same : Errand.reports (.error .userNotFound : PinResult Unit) =
              Errand.reports (.error .userNotFound : PinResult (Option AttemptInfo)) := rfl
          rw [same]
          refine run_reports (main_status which) valid.machine known (showStatus_unfound found) ?_
          rfl
        | some command =>
          refine run_reports (main_command which) valid.machine known (program_unfound found) ?_
          rfl
      rw [refused]
      simp only [Registry.service, Service.beside, whose, found, Errand.nobody, known]
      exact ⟨trivial, carries⟩
    | some uid =>
      rw [Registry.service, Service.beside_own (whose.trans found)]
      exact own_errand valid carries known found

/-- Errands of any callers about any users, one after the other, are answered as by the
registry, and the TPM holds its credentials. -/
theorem pinutil_refines_registry {errands : List Errand} (valid : ∀ errand ∈ errands, errand.Valid)
    (carries : t.Carries registry) :
    (Service.all (Errand.run ops keys) errands t).1 =
        (Service.all Registry.service errands registry).1 ∧
      (Service.all (Errand.run ops keys) errands t).2.Carries
        (Service.all Registry.service errands registry).2 :=
  errand_refines.all valid carries

/-- What is answered about a user, and kept for one, is as if nothing had been asked about
others. -/
theorem users_unseen {errands : List Errand} (valid : ∀ errand ∈ errands, errand.Valid)
    (carries : t.Carries registry) (uid : UInt32) :
    Service.answersTo Errand.whose uid errands (Service.all (Errand.run ops keys) errands t).1 =
        (Service.all (Errand.run ops keys) (Service.requestsOf Errand.whose uid errands) t).1 ∧
      ∀ (serves : Serves uid) (acc acc' : Account),
        (Service.all (Errand.run ops keys) errands t).2.Shows serves acc →
        (Service.all (Errand.run ops keys) (Service.requestsOf Errand.whose uid errands) t).2.Shows
          serves acc' →
            acc.credential = acc'.credential := by
  have own : ∀ errand ∈ Service.requestsOf Errand.whose uid errands, errand.Valid :=
    fun errand member => valid errand (List.mem_filter.1 member).1
  obtain ⟨answers, final⟩ := (@errand_refines ops keys).all valid carries
  obtain ⟨answers', final'⟩ := (@errand_refines ops keys).all own carries
  obtain ⟨same, left⟩ := @Service.all_beside_purged _ _ _ _ _ Errand.whose Errand.atRegistry
    Errand.nobody uid errands registry
  constructor
  · rw [answers, answers']
    exact same
  · intro serves acc acc' shows_ shows'
    obtain ⟨_, shown, -, held⟩ := final uid serves
    obtain ⟨_, shown', -, held'⟩ := final' uid serves
    rw [shows_.unique shown, shows'.unique shown', held, held']
    exact left

end Runs

/-! ## Samples -/

/-- A machine with two users, and who runs pinutil on it. -/
def townEnv (uid : UInt32) : Env where
  uid := uid
  euid := uid
  machine := true
  policy := .default
  uidOf name :=
    if name = "alice".toList then some 1000 else if name = "bob".toList then some 1001 else none
  nameOf uid :=
    if uid = 1000 then some "alice".toList else if uid = 1001 then some "bob".toList else none

/-- Alice and Bob set up PINs, Bob asks for hers and tries to delete it, and she misses it
once. -/
def townErrands : List Errand :=
  [⟨townEnv 1000, some .setup, none, [.ok "4242".toList]⟩,
    ⟨townEnv 1001, some .setup, none, [.ok "0000".toList]⟩,
    ⟨townEnv 1001, none, some "alice".toList, []⟩,
    ⟨townEnv 1001, some .delete, some "alice".toList, [.ok "4242".toList]⟩,
    ⟨townEnv 1000, some .test, none, [.ok "4243".toList]⟩]

theorem default_sane : PinPolicy.default.Sane := ⟨⟨8, rfl, by decide⟩, by decide, by decide⟩

theorem townErrands_valid : ∀ errand ∈ townErrands, errand.Valid := by
  simp only [townErrands, List.forall_mem_cons]
  exact ⟨⟨rfl, default_sane⟩, ⟨rfl, default_sane⟩, ⟨rfl, default_sane⟩, ⟨rfl, default_sane⟩,
    ⟨rfl, default_sane⟩,
    List.forall_mem_nil _⟩

theorem empty_carries : Tpm.empty.Carries fun _ => none :=
  fun _ _ => ⟨⟨.absent, .absent⟩, ⟨rfl, rfl⟩, regular_absent (.inl rfl), rfl⟩

theorem pinutil_refines_registry_town :
    (Service.all (Errand.run idleKeys ⟨none, none, none⟩) townErrands Tpm.empty).1 =
        (Service.all Registry.service townErrands fun _ => none).1 ∧
      ((Service.all Registry.service townErrands fun _ => none).1.map (·.status) = [0, 0, 0, 1, 1]) :=
  ⟨(pinutil_refines_registry townErrands_valid empty_carries).1, by decide +kernel⟩

theorem users_unseen_town :
    Service.answersTo Errand.whose 1000 townErrands
        (Service.all (Errand.run idleKeys ⟨none, none, none⟩) townErrands Tpm.empty).1 =
      (Service.all (Errand.run idleKeys ⟨none, none, none⟩)
        (Service.requestsOf Errand.whose 1000 townErrands) Tpm.empty).1 :=
  (users_unseen townErrands_valid empty_carries 1000).1

end Pinpam
