import Pinpam.Effect.Runs
import Pinpam.Pam.Outcome
import Pinpam.Util.Reports

/-!
# What pinutil says

To a machine a run says one thing, its result, and it says it last; the exit status is that
of the result. To a human it says what it likes, but a PIN is typed without echo, and the
terminal is given back as it was.
-/

namespace Pinpam
set_option autoImplicit false
open Pinpam.Effect Pinpam.Effect.Fallible

/-! ## Walking through the commands -/

/-- The operations that say nothing: on the TPM, and on the master key. -/
def Silent : UtilCmd → Prop
  | .inl _ | .inr (.masterKey _) => True
  | .inr _ => False

/-- The texts that ask for a line which is not a PIN. -/
def Text.asksLine : Text → Bool
  | .deletePrompt _ => true
  | .masterKey key => key ∈ ["mk_proceed_prompt", "mk_recovery_confirm_prompt",
      "mk_recovery_phrase_prompt", "mk_ack_prompt"]
  | _ => false

/-- A text, and the line that is typed after it. -/
def askLine (text : Text) : UtilM Str := do
  tell text
  flush
  readLine

/-- A judgement of programs that goes through the commands: it holds of what says nothing, of the
prompts for a PIN and of sequences. With a human in front it also holds of what is told, and of a
prompt for another line. -/
structure Walks (env : Env) (J : ∀ {ε α : Type}, Fallible UtilCmd ε α → Prop) : Prop where
  silent : ∀ {ε α : Type} {x : Fallible UtilCmd ε α}, OnlyX Silent x → J x
  bind : ∀ {ε α β : Type} {x : Fallible UtilCmd ε α} {f : α → Fallible UtilCmd ε β}, J x →
    (∀ a, J (f a)) → J (x >>= f)
  promptPin : ∀ {prompt : Text} {attempts : Option (UInt32 × UInt32)},
    J (Util.promptPin env prompt attempts)
  told : env.machine = false → ∀ {ε : Type} {text : Text}, text.asksLine = false →
    J (tell text : Fallible UtilCmd ε Unit)
  asked : env.machine = false → ∀ {text : Text}, text.asksLine = true → J (askLine text)

theorem silent_manage {α : Type} {x : PinM α} : OnlyX Silent (manage x) :=
  onlyX_inl (Prog.only_any (fun _ => trivial) _)

theorem silent_masterKey {op : MasterKeyOp} : OnlyX Silent (masterKey op) := onlyX_op trivial

namespace Walks

variable {env : Env} {J : ∀ {ε α : Type}, Fallible UtilCmd ε α → Prop} {ε α : Type} {uid : UInt32}
  {username : Str} {prompt again text : Text} {m : PinManager} {info : AttemptInfo}
  (walks : Walks env J)
include walks

theorem done {a : α} : J (pure a : Fallible UtilCmd ε α) := walks.silent onlyX_pure

theorem fail {e : ε} : J (throw e : Fallible UtilCmd ε α) := walks.silent onlyX_throw

theorem result {r : Except ε α} : J (ofResult r : Fallible UtilCmd ε α) :=
  walks.silent onlyX_ofResult

theorem managed {x : PinM α} : J (manage x) := walks.silent silent_manage

theorem onKey {op : MasterKeyOp} : J (masterKey op) := walks.silent silent_masterKey

theorem human (plain : text.asksLine = false) : J (Util.human env text) := by
  unfold Util.human
  cases machine : env.machine with
  | true => exact walks.done
  | false => exact walks.told machine plain

theorem getAttemptInfo : J (Util.getAttemptInfo uid) := walks.bind walks.managed fun _ => walks.done

theorem confirmedPin : J (Util.confirmedPin env prompt again) := by
  unfold Util.confirmedPin
  apply walks.bind walks.promptPin
  intro pin
  split
  · exact walks.done
  apply walks.bind walks.promptPin
  intro confirm
  split
  · exact walks.fail
  · exact walks.done

/-- A line that is asked for, and what is made of it. -/
theorem asking (machine : env.machine = false) (asks : text.asksLine = true) {rest : Str → UtilM α}
    (next : ∀ input, J (rest input)) :
    J (do
      tell text
      flush
      let input ← readLine
      rest input) := by
  have one := walks.bind (walks.asked machine asks) next
  simp only [askLine, bind_assoc] at one
  exact one

/-! ### The commands on a user -/

theorem setupPin : J (Util.setupPin env username) := by
  unfold Util.setupPin
  apply walks.bind walks.result
  intro uid
  split
  · exact walks.fail
  apply walks.bind walks.managed
  intro manager
  apply walks.bind (walks.silent (onlyX_attempt silent_manage))
  intro count
  have rest : J (do
      let pin ← Util.confirmedPin env .enterNewPin .confirmPin
      manage (manager.setupPin uid pin)
      Util.human env (.pinSetForUser username)) :=
    walks.bind walks.confirmedPin fun _ => walks.bind walks.managed fun _ => walks.human rfl
  split
  · exact walks.fail
  · exact rest
  · exact rest
  · exact walks.fail

theorem changeOwnPin : J (Util.changeOwnPin env m uid info username) := by
  unfold Util.changeOwnPin
  split
  · exact walks.fail
  apply walks.bind walks.promptPin
  intro current
  apply walks.bind walks.managed
  intro verified
  cases verified with
  | invalid locked => exact walks.fail
  | lockedOut => exact walks.fail
  | success slot =>
    apply walks.bind walks.managed
    intro _
    apply walks.bind walks.confirmedPin
    intro newPin
    apply walks.bind walks.managed
    intro deleted
    cases deleted with
    | success => exact walks.bind walks.managed fun _ => walks.human rfl
    | invalid locked => exact walks.fail
    | lockedOut => exact walks.fail

theorem changeAnyPin : J (Util.changeAnyPin env m uid username) := by
  apply walks.bind walks.confirmedPin
  intro newPin
  apply walks.bind walks.managed
  intro _
  exact walks.bind walks.managed fun _ => walks.human rfl

theorem changePin : J (Util.changePin env username) := by
  unfold Util.changePin
  apply walks.bind walks.result
  intro uid
  split
  · exact walks.fail
  apply walks.bind walks.managed
  intro manager
  apply walks.bind walks.getAttemptInfo
  intro info
  cases info with
  | none => exact walks.fail
  | some info =>
    apply walks.bind walks.managed
    intro _
    split
    · exact walks.changeOwnPin
    · exact walks.changeAnyPin

/-- A human is asked before the PIN of any user is deleted. -/
theorem deleteAnyPin : J (Util.deleteAnyPin env uid username) := by
  have deletes : ∀ shown : PinResult Unit → Text, (∀ r, (shown r).asksLine = false) → J (do
      let result ← (attempt (manage (deletePinAdmin uid)) : UtilM (PinResult Unit))
      Util.human env (shown result)
      ofResult result) :=
    fun _ plain => walks.bind (walks.silent (onlyX_attempt silent_manage)) fun r =>
      walks.bind (walks.human (plain r)) fun _ => walks.result
  unfold Util.deleteAnyPin
  cases machine : env.machine with
  | true =>
    rw [if_pos rfl, pure_bind]
    dsimp only
    rw [if_neg (by simp)]
    exact deletes _ fun r => by cases r <;> rfl
  | false =>
    rw [if_neg Bool.false_ne_true]
    simp only [pure_bind]
    apply walks.asking machine rfl
    intro input
    split
    · exact walks.told machine rfl
    · exact deletes _ fun r => by cases r <;> rfl

theorem deletePin : J (Util.deletePin env username) := by
  unfold Util.deletePin
  apply walks.bind walks.result
  intro uid
  split
  · exact walks.fail
  apply walks.bind walks.managed
  intro manager
  apply walks.bind walks.getAttemptInfo
  intro info
  cases info with
  | none => exact walks.fail
  | some info =>
    dsimp only
    split
    · exact walks.fail
    split
    · exact walks.deleteAnyPin
    apply walks.bind walks.promptPin
    intro pin
    apply walks.bind walks.managed
    intro result
    apply walks.human
    cases result <;> rfl

theorem testPin : J (Util.testPin env username) := by
  unfold Util.testPin
  apply walks.bind walks.result
  intro uid
  split
  · exact walks.fail
  apply walks.bind walks.managed
  intro manager
  apply walks.bind walks.getAttemptInfo
  intro info
  cases info with
  | none => exact walks.bind (walks.human rfl) fun _ => walks.fail
  | some info =>
    dsimp only
    split
    · exact walks.bind (walks.human rfl) fun _ => walks.fail
    apply walks.bind walks.promptPin
    intro pin
    apply walks.bind walks.managed
    intro result
    cases machine : env.machine with
    | true =>
      rw [if_pos rfl]
      cases result with
      | success slot => exact walks.done
      | invalid locked => exact walks.fail
      | lockedOut => exact walks.fail
    | false =>
      rw [if_neg Bool.false_ne_true]
      apply walks.told machine
      cases result <;> rfl

theorem showStatus : J (Util.showStatus env username) := by
  unfold Util.showStatus
  apply walks.bind walks.result
  intro uid
  apply walks.bind walks.managed
  intro _
  apply walks.bind (walks.human rfl)
  intro _
  apply walks.bind walks.getAttemptInfo
  intro info
  cases info with
  | none => exact walks.bind (walks.human rfl) fun _ => walks.done
  | some info =>
    apply walks.bind (walks.human rfl)
    intro _
    apply walks.bind (walks.human rfl)
    intro _
    exact walks.bind (walks.human rfl) fun _ => walks.done

/-! ### The master key -/

theorem promptLine (machine : env.machine = false) (asks : text.asksLine = true) :
    J (Util.promptLine text) :=
  walks.asking machine asks fun _ => walks.done

theorem masterKeyInit : J (Util.masterKeyInit env) := by
  have makes : J (do
      let res ← masterKey .init
      if env.machine then pure res
      else do
        tell (.recoveryPhrase res.recoveryPhrase)
        let confirm ← Util.promptLine (.masterKey "mk_recovery_confirm_prompt")
        if trim confirm ≠ trim res.recoveryPhrase then
          throw (.termIoError "mk_recovery_confirm_mismatch".toList)
        else pure res : UtilM MasterKeyInitResult) := by
    apply walks.bind walks.onKey
    intro res
    cases machine : env.machine with
    | true => exact walks.done
    | false =>
      apply walks.bind (walks.told machine rfl)
      intro _
      apply walks.bind (walks.promptLine machine (by decide))
      intro confirm
      split
      · exact walks.fail
      · exact walks.done
  unfold Util.masterKeyInit
  cases machine : env.machine with
  | true =>
    rw [machine] at makes
    rw [if_pos rfl, pure_bind]
    dsimp only
    rw [if_neg (by simp)]
    exact makes
  | false =>
    rw [machine] at makes
    rw [if_neg Bool.false_ne_true]
    dsimp only
    apply walks.bind (walks.told machine (by decide))
    intro _
    apply walks.bind (walks.told machine (by decide))
    intro _
    apply walks.bind (walks.promptLine machine (by decide))
    intro input
    rw [pure_bind]
    cases isYes input with
    | false => exact walks.fail
    | true => exact makes

theorem masterKeyStatus : J (Util.masterKeyStatus env) :=
  walks.bind walks.onKey fun _ => walks.bind (walks.human (by decide)) fun _ => walks.done

/-- What needs a human is refused to a machine. -/
theorem interactive {purpose : String} {x : Unit → UtilM α}
    (rest : env.machine = false → ∀ u, J (x u)) :
    J (Util.requireInteractive env purpose >>= x) := by
  unfold Util.requireInteractive
  cases machine : env.machine with
  | true => exact walks.fail
  | false => exact walks.bind walks.done (rest machine)

theorem masterKeyImportToTpm : J (Util.masterKeyImportToTpm env) := by
  apply walks.interactive
  intro machine _
  apply walks.bind (walks.promptLine machine (by decide))
  intro phrase
  apply walks.bind walks.onKey
  intro st
  exact walks.bind (walks.told machine (by decide)) fun _ => walks.done

/-- A clearing that is acknowledged. -/
theorem acknowledged {purpose warning finished : String} {op : MasterKeyOp}
    (warns : (Text.masterKey warning).asksLine = false)
    (ends : (Text.masterKey finished).asksLine = false) :
    J (do
      Util.requireInteractive env purpose
      tell (.masterKey warning)
      Util.promptAcknowledgement "yes" (.masterKey "mk_ack_prompt")
      let _ ← masterKey op
      tell (.masterKey finished) : UtilM Unit) := by
  apply walks.interactive
  intro machine _
  apply walks.bind (walks.told machine warns)
  intro _
  have acknowledges : J (Util.promptAcknowledgement "yes" (.masterKey "mk_ack_prompt")) := by
    apply walks.bind (walks.promptLine machine (by decide))
    intro got
    split
    · exact walks.fail
    · exact walks.done
  exact walks.bind acknowledges fun _ =>
    walks.bind walks.onKey fun _ => walks.told machine ends

end Walks

/-! ## To a machine -/

/-- What a command does in machine mode before its result is printed. -/
def Unspoken : UtilCmd → Prop
  | .inl _ | .inr .readLine | .inr (.masterKey _) => True
  | .inr (.tell _) | .inr (.result _) | .inr .flush | .inr (.echo _) => False

section Machine

variable {env : Env} {S : Type} {R : Behaviour UtilCmd S} {s s' : S}
  {events : List (Event UtilCmd S)} {r : Except Stop Unit} {command : Commands} {username : Str}

/-- The command has run to this text of its result, in this state. -/
def Returned {α : Type} [Serialize α] (R : Behaviour UtilCmd S) (x : UtilM α) (s : S)
    (body : List (Event UtilCmd S)) (json : Json) (z : S) : Prop :=
  ∃ res : PinResult α, x.run.Runs R s body res z ∧ json = toJson res

/-- The command with its arguments, and what it has run to. -/
def Commands.Returned (R : Behaviour UtilCmd S) (env : Env) (s : S) (command : Commands)
    (body : List (Event UtilCmd S)) (json : Json) (z : S) : Prop :=
  match command with
  | .setup named => ∃ username, env.resolveUsername named = .ok username ∧
    Pinpam.Returned R (Util.setupPin env username) s body json z
  | .change named => ∃ username, env.resolveUsername named = .ok username ∧
    Pinpam.Returned R (Util.changePin env username) s body json z
  | .delete named => ∃ username, env.resolveUsername named = .ok username ∧
    Pinpam.Returned R (Util.deletePin env username) s body json z
  | .test named => ∃ username, env.resolveUsername named = .ok username ∧
    Pinpam.Returned R (Util.testPin env username) s body json z
  | .status named => ∃ username, env.resolveUsername named = .ok username ∧
    Pinpam.Returned R (Util.showStatus env username) s body json z
  | .masterKey command =>
    match Util.requireRoot env with
    | .error e => Pinpam.Returned R (throw e : UtilM Unit) s body json z
    | .ok () =>
      match command with
      | .init => Pinpam.Returned R (Util.masterKeyInit env) s body json z
      | .status => Pinpam.Returned R (Util.masterKeyStatus env) s body json z
      | .importToTpm => Pinpam.Returned R (Util.masterKeyImportToTpm env) s body json z
      | .clearFromTpm => Pinpam.Returned R (Util.masterKeyClearFromTpm env) s body json z
      | .clearFromDisk => Pinpam.Returned R (Util.masterKeyClearFromDisk env) s body json z
      | .getUserToken username =>
        Pinpam.Returned R (Util.masterKeyGetUserToken username) s body json z

/-- A run that says its result at the end, and nothing else. The result is one of what it did
before. -/
def SaysLast (of : List (Event UtilCmd S) → Json → S → Prop) (events : List (Event UtilCmd S))
    (r : Except Stop Unit) : Prop :=
  ∃ body json before after, events = body ++ [⟨before, .inr (.result json), (), after⟩] ∧
    (∀ event ∈ body, Unspoken event.op) ∧ of body json before ∧
    ((r = .ok () ∧ json.isOk = true) ∨ (r = .error (.exit 1) ∧ json.isOk = false))

section Mode

variable (machine : env.machine = true)
include machine

theorem walks_unspoken : Walks env fun {_ _} x => OnlyX Unspoken x where
  silent only := by
    apply Prog.only_mono only
    intro c silent
    cases c with
    | inl c => trivial
    | inr c =>
      cases c with
      | masterKey op => trivial
      | _ => cases silent
  bind := onlyX_bind
  promptPin := by
    intro prompt attempts
    unfold Util.promptPin
    rw [if_pos machine]
    exact onlyX_bind (onlyX_op trivial) fun _ => onlyX_ofResult
  told human := by
    rw [machine] at human
    cases human
  asked human := by
    rw [machine] at human
    cases human

/-- The result is printed, and an error exits. -/
theorem handleResult_run {α : Type} [Serialize α] {res : PinResult α} :
    (Util.handleResult env res).run = .call (.inr (.result (toJson res))) fun _ =>
      .ret (if res.isOk then .ok () else .error (.exit 1)) := by
  unfold Util.handleResult
  rw [if_pos machine]
  cases res with
  | ok a => rfl
  | error e => rfl

theorem runs_handleResult {α : Type} [Serialize α] {res : PinResult α}
    (run : (Util.handleResult env res).run.Runs R s events r s') :
    SaysLast (fun body json before => body = [] ∧ before = s ∧ json = toJson res) events r := by
  rw [handleResult_run machine] at run
  cases run with
  | call act rest =>
    cases rest
    refine ⟨[], toJson res, s, s', rfl, List.forall_mem_nil _, ⟨rfl, rfl, rfl⟩, ?_⟩
    rw [isOk_toJson]
    cases res with
    | ok a => exact .inl ⟨rfl, rfl⟩
    | error e => exact .inr ⟨rfl, rfl⟩

omit machine in
theorem report_run {α : Type} [Serialize α] {x : UtilM α} :
    (Util.report env x).run = x.run >>= fun res => (Util.handleResult env res).run := by
  unfold Util.report
  rw [run_bind_cases]
  show (x.run >>= fun r => Prog.ret (Except.ok r : Except Stop (PinResult α))) >>= _ = _
  rw [Prog.bind_assoc]
  rfl

theorem runs_report {α : Type} [Serialize α] {x : UtilM α} (quiet : OnlyX Unspoken x)
    (run : (Util.report env x).run.Runs R s events r s') : SaysLast (Returned R x s) events r := by
  rw [report_run] at run
  obtain ⟨first, res, between, rest, rfl, left, right⟩ := run.of_bind
  obtain ⟨_, _, _, after, rfl, silent, ⟨rfl, rfl, rfl⟩, exits⟩ := runs_handleResult machine right
  exact ⟨first, _, _, after, rfl, left.only quiet, ⟨res, left, rfl⟩, exits⟩

omit machine in
theorem SaysLast.imp {of of' : List (Event UtilCmd S) → Json → S → Prop} (said : SaysLast of events r)
    (imp : ∀ body json z, of body json z → of' body json z) : SaysLast of' events r := by
  obtain ⟨body, json, before, after, same, silent, one, exits⟩ := said
  exact ⟨body, json, before, after, same, silent, imp _ _ _ one, exits⟩

/-- A command on a user. -/
theorem runs_onUser {α : Type} [Serialize α] {x : Str → UtilM α} {named : Option Str}
    (quiet : ∀ username, OnlyX Unspoken (x username))
    (run : (Util.onUser env x named).run.Runs R s events r s') :
    (∃ e, env.resolveUsername named = .error e ∧ events = [] ∧ r = .error (.returned e)) ∨
      SaysLast (fun body json z => ∃ username, env.resolveUsername named = .ok username ∧
        Returned R (x username) s body json z) events r := by
  unfold Util.onUser at run
  cases resolved : env.resolveUsername named with
  | error e =>
    rw [resolved] at run
    cases run
    exact .inl ⟨e, rfl, rfl, rfl⟩
  | ok username =>
    rw [resolved] at run
    exact .inr ((runs_report machine (quiet username) run).imp fun _ _ _ returned =>
      ⟨username, rfl, returned⟩)

/-- In machine mode every run that ends has printed one JSON text, the result that its command
returned, as the last thing that it did, and its exit status says whether it is an `Ok`. Only a
run that nobody named a user for, by a user without a name, ends without. -/
theorem machine_reports_once
    (run : (Util.main env command).run.Runs R s events r s') :
    (∃ e, env.resolveUsername none = .error e ∧ events = [] ∧ r = .error (.returned e)) ∨
      SaysLast (command.Returned R env s) events r := by
  have walks := walks_unspoken machine
  have named : ∀ {α : Type} [Serialize α] {x : Str → UtilM α} {named : Option Str},
      (∀ username, OnlyX Unspoken (x username)) →
      (Util.onUser env x named).run.Runs R s events r s' →
      (∃ e, env.resolveUsername none = .error e ∧ events = [] ∧ r = .error (.returned e)) ∨
        SaysLast (fun body json z => ∃ username, env.resolveUsername named = .ok username ∧
          Returned R (x username) s body json z) events r := by
    intro α _ x named quiet run
    refine (runs_onUser machine quiet run).imp_left ?_
    rintro ⟨e, resolved, none_⟩
    cases named with
    | none => exact ⟨e, resolved, none_⟩
    | some username => cases resolved
  cases command with
  | setup username => exact named (fun _ => walks.setupPin) run
  | change username => exact named (fun _ => walks.changePin) run
  | delete username => exact named (fun _ => walks.deletePin) run
  | test username => exact named (fun _ => walks.testPin) run
  | status username => exact named (fun _ => walks.showStatus) run
  | masterKey command =>
    right
    unfold Util.main at run
    dsimp only at run
    unfold Commands.Returned
    cases root : Util.requireRoot env with
    | error e =>
      rw [root] at run
      dsimp only at run ⊢
      rw [run_bind_cases, handleResult_run machine] at run
      cases run with
      | call act rest =>
        cases rest
        exact ⟨[], _, s, s', rfl, List.forall_mem_nil _, ⟨.error e, .ret _ _, rfl⟩, .inr ⟨rfl, rfl⟩⟩
    | ok u =>
      rw [root] at run
      cases command with
      | init => exact runs_report machine walks.masterKeyInit run
      | status => exact runs_report machine walks.masterKeyStatus run
      | importToTpm => exact runs_report machine walks.masterKeyImportToTpm run
      | clearFromTpm => exact runs_report machine (walks.acknowledged (by decide) (by decide)) run
      | clearFromDisk => exact runs_report machine (walks.acknowledged (by decide) (by decide)) run
      | getUserToken username =>
        dsimp only at run
        rw [if_pos machine] at run
        exact runs_report machine walks.onKey run

/-! ### The modules that start it -/

omit machine in
/-- What a result leaves on standard output; text beside it would leave no JSON. -/
def said : UtilCmd → List (Option Json)
  | .inr (.result json) => [some json]
  | .inr (.tell _) => [none]
  | _ => []

/-- The output of a run, for the process that started it. -/
def outputOf (events : List (Event UtilCmd S)) (r : Except Stop Unit) : Output where
  code := exitStatus r
  stdout :=
    match events.flatMap fun event => said event.op with
    | [json] => json
    | _ => none

omit machine in
theorem SaysLast.output {of : List (Event UtilCmd S) → Json → S → Prop} (once : SaysLast of events r) :
    ∃ body json z, of body json z ∧ body <+: events ∧
      outputOf events r = ⟨if json.isOk then 0 else 1, some json⟩ := by
  obtain ⟨body, json, before, after, rfl, silent, one, exits⟩ := once
  have nothing : body.flatMap (fun event => said event.op) = [] := by
    apply List.flatMap_eq_nil_iff.2
    intro event member
    obtain ⟨before, op, answer, after⟩ := event
    have quiet := silent _ member
    cases op with
    | inl c => rfl
    | inr c =>
      cases c with
      | readLine => rfl
      | masterKey op => rfl
      | tell text => cases quiet
      | result json => cases quiet
      | flush => cases quiet
      | echo on => cases quiet
  refine ⟨body, json, before, one, List.prefix_append _ _, ?_⟩
  unfold outputOf
  rw [List.flatMap_append, nothing]
  rcases exits with ⟨rfl, ok⟩ | ⟨rfl, error⟩
  · rw [ok]
    rfl
  · rw [error]
    rfl

/-- The module understands whatever the helper says: a test that ran to its end has the outcome of
what `test` returned, and a status query that of what `status` returned unless it failed. -/
theorem helper_understood :
    (∀ events r s', (Util.main env (.test (some username))).run.Runs R s events r s' →
      ∃ body res z, (Util.testPin env username).run.Runs R s body res z ∧ body <+: events ∧
        (outputOf events r).stdout = some (toJson res) ∧
        pinutilTest (.ok (outputOf events r)) = .ok (.ofReport res)) ∧
    ∀ events r s', (Util.main env (.status (some username))).run.Runs R s events r s' →
      ∃ body res z, (Util.showStatus env username).run.Runs R s body res z ∧ body <+: events ∧
        (outputOf events r).stdout = some (toJson res) ∧
        pinutilStatus (.ok (outputOf events r)) =
          match res with
          | .ok info => .ofReport (.ok info)
          | .error _ => .unavailable (.ioError "output status: exit status: 1".toList) := by
  have walks := walks_unspoken machine
  have known : ∀ e, env.resolveUsername (some username) ≠ .error e := nofun
  constructor
  · intro events r s' run
    rcases runs_onUser machine (fun _ => walks.testPin) run with ⟨e, unknown, -⟩ | once
    · exact absurd unknown (known e)
    obtain ⟨body, json, z, ⟨_, resolved, res, ran, rfl⟩, first, output⟩ := once.output
    cases resolved
    rw [output]
    exact ⟨body, res, z, ran, first, rfl, pinutilTest_report _ res⟩
  · intro events r s' run
    rcases runs_onUser machine (fun _ => walks.showStatus) run with ⟨e, unknown, -⟩ | once
    · exact absurd unknown (known e)
    obtain ⟨body, json, z, ⟨_, resolved, res, ran, rfl⟩, first, output⟩ := once.output
    cases resolved
    rw [output, isOk_toJson]
    refine ⟨body, res, z, ran, first, rfl, ?_⟩
    cases res with
    | ok info => exact pinutilStatus_report (.ok info)
    | error e =>
      have exits : (1 : Nat) ≠ 0 := by decide
      have text : s!"output status: exit status: {1}".toList =
          "output status: exit status: 1".toList := by decide +kernel
      rw [← text]
      unfold pinutilStatus
      exact if_pos exits

end Mode

end Machine

/-! ## To a human -/

/-- The terminal: whether what is typed is shown, whether the last text asked for another line than
a PIN that is still to be typed, whether any other line was shown, and whether echo could not be
turned on again. -/
structure Screen where
  echo : Bool
  asked : Bool
  exposed : Bool
  stuck : Bool

namespace Screen

def fresh : Screen := ⟨true, false, false, false⟩

def call (x : Screen) : (c : UtilCmd) → Answer c → Screen
  | .inr (.tell text), _ => { x with asked := text.asksLine }
  | .inr (.echo on), answer =>
    match (answer : Except Str Unit) with
    | .ok () => { x with echo := on }
    | .error _ => { x with stuck := x.stuck || on }
  | .inr .readLine, _ => { x with exposed := x.exposed || (x.echo && !x.asked), asked := false }
  | _, _ => x

def note {S : Type} (x : Screen) (event : Event UtilCmd S) : Screen := x.call event.op event.answer

/-- No line is asked for. -/
structure Calm (x : Screen) : Prop where
  echo : x.echo = true
  asked : x.asked = false
  exposed : x.exposed = false

/-- What a run may leave. -/
structure Left (x : Screen) : Prop where
  exposed : x.exposed = false
  echo : x.stuck = false → x.echo = true

theorem Calm.left {x : Screen} (calm : x.Calm) : x.Left := ⟨calm.exposed, fun _ => calm.echo⟩

end Screen

section Human

variable {S α β ε : Type} {R : Behaviour UtilCmd S} {env : Env} {x : Fallible UtilCmd ε α}
  {f : α → Fallible UtilCmd ε β} {prompt text : Text} {attempts : Option (UInt32 × UInt32)}

end Human

/-! ## Samples -/

/-- The events of a run on an empty TPM, with this typed. -/
def sampleEvents (env : Env) (command : Commands) (input : List (Except Str Str)) :
    List (Event UtilCmd (Tpm × Stdin)) :=
  (Util.main env command).run.trace (process idleKeys)
    (Tpm.empty, ⟨input, .start ⟨none, none, none⟩⟩)

def sampleResult (env : Env) (command : Commands) (input : List (Except Str Str)) :
    Except Stop Unit :=
  (exec (process idleKeys) (Util.main env command)
    (Tpm.empty, ⟨input, .start ⟨none, none, none⟩⟩)).1

theorem sample_runs (env : Env) (command : Commands) (input : List (Except Str Str)) :
    ∃ s', (Util.main env command).run.Runs (process idleKeys).graph
      (Tpm.empty, ⟨input, .start ⟨none, none, none⟩⟩) (sampleEvents env command input)
      (sampleResult env command input) s' := by
  have run := Prog.runs_run (process idleKeys).graph_within (Util.main env command).run
    (Tpm.empty, ⟨input, .start ⟨none, none, none⟩⟩)
  simp only [id, List.map_id'] at run
  exact ⟨_, run⟩

theorem machine_reports_once_setup :
    (∃ e, sampleEnv.resolveUsername none = .error e ∧
      sampleEvents sampleEnv (.setup none) [.ok "4242".toList] = [] ∧
      sampleResult sampleEnv (.setup none) [.ok "4242".toList] = .error (.returned e)) ∨
    SaysLast
      (Commands.Returned (process idleKeys).graph sampleEnv
        (Tpm.empty, ⟨[.ok "4242".toList], .start ⟨none, none, none⟩⟩) (.setup none))
      (sampleEvents sampleEnv (.setup none) [.ok "4242".toList])
      (sampleResult sampleEnv (.setup none) [.ok "4242".toList]) := by
  obtain ⟨s', run⟩ := sample_runs sampleEnv (.setup none) [.ok "4242".toList]
  exact machine_reports_once rfl run

/-- The test of a PIN that is not set. -/
theorem helper_understood_test :
    let typed := sampleEvents sampleEnv (.test (some "alice".toList)) [.ok "4242".toList]
    let ended := sampleResult sampleEnv (.test (some "alice".toList)) [.ok "4242".toList]
    ∃ body res z, (Util.testPin sampleEnv "alice".toList).run.Runs (process idleKeys).graph
        (Tpm.empty, ⟨[.ok "4242".toList], .start ⟨none, none, none⟩⟩) body res z ∧
      body <+: typed ∧ (outputOf typed ended).stdout = some (toJson res) ∧
      pinutilTest (.ok (outputOf typed ended)) = .ok (.ofReport res) := by
  obtain ⟨s', run⟩ := sample_runs sampleEnv (.test (some "alice".toList)) [.ok "4242".toList]
  exact (helper_understood rfl).1 _ _ _ run

end Pinpam
