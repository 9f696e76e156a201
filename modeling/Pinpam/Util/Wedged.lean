import Pinpam.Util.Invocations

/-!
# Slots that cannot be helped

A slot that is defined and not yet written reads as no PIN, so root cannot delete it, and is
in the way of a new one. Where no command fails and no process is killed while there is such
a slot, none is left, and root can bring every user back to a PIN that works.
-/

namespace Pinpam
set_option autoImplicit false
open Pinpam.Effect Pinpam.Effect.Fallible

/-- The slot is not left half defined. -/
def Account.Whole (acc : Account) : Prop := ∀ a, acc.slot ≠ .unwritten a

/-- No user has a slot that is defined and not yet written. -/
def Tpm.Whole (t : Tpm) : Prop := ∀ uid (serves : Serves uid) acc, t.Shows serves acc → acc.Whole

/-- A command on the PIN of a user. -/
def Commands.OnPin : Commands → Prop
  | .masterKey _ => False
  | _ => True

/-- Root, in machine mode, for the user with this name. -/
structure Env.Helps (env : Env) (name : Str) (uid : UInt32) : Prop where
  root : env.uid = 0
  machine : env.machine = true
  resolves : env.uidOf name = some uid

/-- A line that gives a PIN which the TPM takes, under a limit that it counts to. -/
structure PinPolicy.Takes (policy : PinPolicy) (line : Str) (pin : Pin) : Prop where
  made : Pin.new line policy = .ok pin
  short : (asBytes pin.str).length ≤ authMaxSize
  fits : pin.auth.bytes.length ≤ authValueMax
  positive : 0 < policy.maxAttempts
  low : policy.maxAttempts.toNat < 2 ^ 31

/-- The run returned `Ok`, and the PIN is verified after it, by any manager. -/
structure Provides (uid : UInt32) (pin : Pin) (x : Except Stop Unit × Tpm × Stdin) : Prop where
  ok : x.1 = .ok ()
  verifies : ∀ m : PinManager, ∃ data,
    (exec Tpm.exec (m.verifyPin uid pin) x.2.1).1 = .ok (.success data)

/-- Root sets up the PIN, or deletes the slot first. -/
def Restores (ops : KeyOps) (keys : KeyStore) (env : Env) (name line : Str) (uid : UInt32)
    (pin : Pin) (t : Tpm) : Prop :=
  Provides uid pin (UserCommand.run ops env (some name) t [.ok line] keys .setup) ∨
    (UserCommand.run ops env (some name) t [] keys .delete).1 = .ok () ∧
      Provides uid pin
        (UserCommand.run ops env (some name) (UserCommand.run ops env (some name) t [] keys .delete).2.1
          [.ok line] keys .setup)

section Wedged

variable {ops : KeyOps} {keys : KeyStore} {env : Env} {name line : Str} {uid limit : UInt32}
  {serves : Serves uid} {t : Tpm} {acc : Account} {pin : Pin} {m : PinManager}
  {username : Option Str}

/-! ## What root can do -/

theorem exit_ok {r : PinResult Unit} : reportExit r = .ok () ↔ r = .ok () := by
  cases r with
  | ok u => exact ⟨fun _ => rfl, fun _ => rfl⟩
  | error e => simp [reportExit]

/-- A setup where there is no slot, whatever the tag. -/
theorem setup_restores (helps : env.Helps name uid) (takes : env.policy.Takes line pin)
    (absent : acc.slot = .absent) :
    Provides uid pin (UserCommand.run ops env (some name) (t.put serves acc)
      [.ok line] keys .setup) := by
  have found : env.getUidFromUsername name = .ok uid := by rw [Env.getUidFromUsername, helps.resolves]
  have manages : env.canManagePin uid = true := by simp [Env.canManagePin, helps.root]
  have fresh : Account.refusal (asBytes pin.str) .absent = none :=
    refusal_eq_none.2 ⟨takes.short, rfl, takes.fits⟩
  have account : UserCommand.onAccount env uid .setup acc ⟨[.ok line], .start keys⟩ =
      (.ok (), ⟨.written pin.auth ⟨0, env.policy.maxAttempts⟩, .version PIN_VERSION_CURRENT⟩,
        ⟨[], (Console.start keys).types [line]⟩) := by
    have read : Stdin.promptPin env.policy ⟨[.ok line], .start keys⟩ =
        (.ok pin, ⟨[], (Console.start keys).types [line]⟩) := by
      simp [Stdin.promptPin, Stdin.readLine, Except.bind, takes.made]
    have unset : acc.slot.data = none := by simp [absent, SlotState.data]
    have set := @setupPin_stored uid env.policy.maxAttempts acc pin unset (absent ▸ fresh)
    simp [UserCommand.onAccount, Machine.setupPin, manages, unset, read, set]
  rw [run_on_account helps.machine rfl found, account]
  have opens := (fresh_opens_iff (a := pin.auth)).2 ⟨UInt32.lt_iff_toNat_lt.1 takes.positive, takes.low⟩
  constructor
  · rfl
  · intro m
    dsimp only
    rw [exec_verifyPin]
    exact ⟨_, Account.Accepts.success (.current rfl opens takes.short)⟩

/-- Root can help exactly where the slot is not half defined. -/
theorem restores_iff (helps : env.Helps name uid) (takes : env.policy.Takes line pin) :
    Restores ops keys env name line uid pin (t.put serves acc) ↔ acc.Whole := by
  have found : env.getUidFromUsername name = .ok uid := by rw [Env.getUidFromUsername, helps.resolves]
  have manages : env.canManagePin uid = true := by simp [Env.canManagePin, helps.root]
  constructor
  · intro restores a half
    rcases restores with setup | ⟨deleted, -⟩
    · have ok := setup.ok
      rw [run_on_account helps.machine rfl found, exit_ok] at ok
      have read : Stdin.promptPin env.policy ⟨[.ok line], .start keys⟩ =
          (.ok pin, ⟨[], (Console.start keys).types [line]⟩) := by
        simp [Stdin.promptPin, Stdin.readLine, Except.bind, takes.made]
      have refused :
          Account.refusal (asBytes pin.str) (.unwritten a) = some (.tss2 (some .nvDefined)) := by
        simp [Account.refusal, Nat.not_lt.2 takes.short]
      simp [UserCommand.onAccount, Machine.setupPin, manages, half, SlotState.data, read,
        Account.setupPin, refused] at ok
    · rw [run_on_account helps.machine rfl found, exit_ok] at deleted
      simp [UserCommand.onAccount, Machine.deletePin, helps.root, half, SlotState.data] at deleted
  · intro whole
    cases slot : acc.slot with
    | absent => exact .inl (setup_restores helps takes slot)
    | unwritten a => exact absurd slot (whole a)
    | written a c =>
      have account : UserCommand.onAccount env uid .delete acc ⟨[], .start keys⟩ =
          (.ok (), ⟨.absent, .absent⟩, ⟨[], .start keys⟩) := by
        simp [UserCommand.onAccount, Machine.deletePin, helps.root, slot, SlotState.data,
          Account.deletePinAdmin]
      right
      rw [run_on_account helps.machine rfl found, account]
      exact ⟨rfl, setup_restores helps takes rfl⟩

/-! ## What the commands leave -/

/-- The account of the user is whole. -/
def LeftWhole (serves : Serves uid) (t : Tpm) (x : Tpm) : Prop :=
  ∃ a : Account, x = t.put serves a ∧ a.Whole

/-- The TPM fails no command where a slot is half defined, so what a command that failed
leaves is whole. -/
theorem leftWhole_of_failed {a b : Account} (how : a.StopsAt pin b)
    (may : Tpm.Whole (t.put serves b)) :
    LeftWhole serves t (t.put serves a) := by
  refine ⟨a, rfl, ?_⟩
  rcases how with rfl | ⟨absent, -⟩
  · exact may uid serves _ Tpm.put_shows
  · simp [Account.Whole, absent]

theorem setupPin_whole (whole : acc.Whole) : (acc.setupPin uid pin limit).2.Whole := by
  unfold Account.setupPin
  split
  · exact whole
  split
  · exact whole
  · simp [Account.Whole]

theorem deletePinAdmin_whole (whole : acc.Whole) : (acc.deletePinAdmin uid).2.Whole := by
  unfold Account.deletePinAdmin
  split
  · exact whole
  · simp [Account.Whole]

theorem compared_whole {a : Auth} (whole : acc.Whole) :
    Account.Whole { acc with slot := acc.slot.compared a } := by
  intro b half
  cases slot : acc.slot with
  | absent => simp [slot, SlotState.compared] at half
  | unwritten c => exact whole c slot
  | written c d =>
    simp only [slot, SlotState.compared] at half
    split at half <;> cases half

theorem verifyPinExact_whole {bytes : Bytes} (whole : acc.Whole) :
    (acc.verifyPinExact uid bytes).2.Whole := by
  rcases @verifyPinExact_visits uid acc bytes with same | moved
  · rwa [same]
  · rw [moved]
    exact compared_whole whole

theorem migrate_whole (whole : acc.Whole) : (acc.migrateLegacyPinFormat uid pin limit).2.Whole := by
  unfold Account.migrateLegacyPinFormat
  split
  · exact whole
  have removed := @deletePinAdmin_whole uid acc whole
  split
  · next eq =>
    rw [eq] at removed
    exact setupPin_whole removed
  · exact removed

theorem verifyPin_whole (whole : acc.Whole) : (acc.verifyPin uid pin limit).2.Whole := by
  unfold Account.verifyPin
  split
  · split
    · exact whole
    · exact verifyPinExact_whole whole
  have exact_ := @verifyPinExact_whole uid acc (asBytes (normalizeLegacyPin pin.str)) whole
  split
  · next eq =>
    rw [eq] at exact_
    exact migrate_whole exact_
  · exact exact_

theorem deletePinWithAuth_whole (whole : acc.Whole) :
    (acc.deletePinWithAuth uid pin limit).2.Whole := by
  have verified := @verifyPin_whole uid limit acc pin whole
  unfold Account.deletePinWithAuth
  split
  all_goals
    next eq =>
      rw [eq] at verified
      first
      | exact verified
      | exact deletePinAdmin_whole verified

/-- What an operation of the manager leaves of a whole account. -/
abbrev KeepsWhole {α : Type} (serves : Serves uid) (t : Tpm) (acc : Account) (x : PinM α) : Prop :=
  wpx (Faulty Tpm.exec Tpm.Whole) (fun t' => ∃ a, t' = t.put serves a) x (fun _ => LeftWhole serves t)
    (t.put serves acc)

theorem setupPin_keepsWhole (whole : acc.Whole) : KeepsWhole serves t acc (m.setupPin uid pin) := by
  apply wpx_setupPin
  · exact fun a _ => ⟨a, rfl⟩
  · exact ⟨_, rfl, setupPin_whole whole⟩
  · exact fun a b _ _ how may _ => leftWhole_of_failed how may

theorem deletePinAdmin_keepsWhole (whole : acc.Whole) :
    KeepsWhole serves t acc (deletePinAdmin uid) := by
  have gone : ∀ tag, LeftWhole serves t (t.put serves ⟨.absent, tag⟩) :=
    fun tag => ⟨_, rfl, by simp [Account.Whole]⟩
  apply wpx_deletePinAdmin ⟨acc, rfl⟩
  · exact fun _ tag _ => ⟨_, rfl⟩
  · exact fun _ => ⟨acc, rfl, whole⟩
  · exact fun _ => gone _
  · exact fun _ _ => gone _
  · exact fun _ _ => ⟨acc, rfl, whole⟩
  · exact fun _ _ _ => gone _

theorem verifyPin_keepsWhole (whole : acc.Whole) : KeepsWhole serves t acc (m.verifyPin uid pin) := by
  apply wpx_verifyPin
  · exact fun a _ => ⟨a, rfl⟩
  · exact ⟨_, rfl, verifyPin_whole whole⟩
  · exact fun a b _ _ how may _ => leftWhole_of_failed how may
  · exact fun _ a b _ _ _ _ how may => leftWhole_of_failed how may
  · exact fun _ _ => ⟨_, rfl, verifyPin_whole whole⟩

theorem deletePinWithAuth_keepsWhole (whole : acc.Whole) :
    KeepsWhole serves t acc (m.deletePinWithAuth uid pin) := by
  apply wpx_deletePinWithAuth
  · exact fun a _ => ⟨a, rfl⟩
  · exact ⟨_, rfl, deletePinWithAuth_whole whole⟩
  · exact fun a b _ _ how may _ => leftWhole_of_failed how may
  · exact fun a _ _ _ absent _ => ⟨a, rfl, by simp [Account.Whole, absent]⟩
  · exact fun _ _ => ⟨_, rfl, deletePinWithAuth_whole whole⟩

/-- A command on a whole account leaves it whole, if it is not killed. -/
theorem program_keepsWhole {command : UserCommand} (found : env.getUidFromUsername name = .ok uid)
    (whole : acc.Whole) :
    wpx (frailHost Tpm.Whole) (fun x => ∃ a, x.1 = t.put serves a) (command.program env name)
      (fun _ x => LeftWhole serves t x.1)
      (t.put serves acc, .start keys) := by
  have crash : ∀ lines, ∃ a, (t.put serves acc, (Console.start keys).types lines).1 = t.put serves a :=
    fun _ => ⟨acc, rfl⟩
  have kept : ∀ (e : PinError) (lines : List Str), LeftWhole serves t (t.put serves acc,
      (Console.start keys).types lines).1 :=
    fun _ _ => ⟨acc, rfl, whole⟩
  cases command with
  | setup =>
    exact Util.wpx_setupPin found serving_faulty crash kept fun _ _ _ _ _ _ _ =>
      setupPin_keepsWhole whole
  | change =>
    apply Util.wpx_changePin found serving_faulty crash kept
    · intro _ _ _ _ _ line current _
      apply wpx_mono (verifyPin_keepsWhole whole)
      rintro (e | (data | locked | _)) _ _ ⟨a, rfl, whole⟩
      · exact fun _ => ⟨a, rfl, whole⟩
      · refine ⟨connects_faulty, fun lines => ⟨⟨a, rfl⟩, fun _ => ⟨a, rfl, whole⟩⟩,
          fun line' new rest _ _ => ?_⟩
        apply wpx_mono (deletePinWithAuth_keepsWhole whole)
        rintro (e | (_ | locked | _)) _ _ ⟨a, rfl, whole⟩
        · exact fun _ => ⟨a, rfl, whole⟩
        · exact setupPin_keepsWhole whole
        · exact fun _ => ⟨a, rfl, whole⟩
        · exact fun _ => ⟨a, rfl, whole⟩
      · exact fun _ => ⟨a, rfl, whole⟩
      · exact fun _ => ⟨a, rfl, whole⟩
    · intro _ _ _ line new rest _ _
      apply wpx_mono (deletePinAdmin_keepsWhole whole)
      rintro (e | _) _ _ ⟨a, rfl, whole⟩
      · exact ⟨a, rfl, whole⟩
      · exact setupPin_keepsWhole whole
  | delete =>
    apply Util.wpx_deletePin found serving_faulty crash kept
    · exact fun _ _ _ => ⟨acc, rfl, whole⟩
    · exact fun _ _ _ _ _ => deletePinAdmin_keepsWhole whole
    · exact fun _ _ _ _ _ _ _ _ => deletePinWithAuth_keepsWhole whole
  | test =>
    apply Util.wpx_testPin found serving_faulty crash kept
    intro _ _ _ _ line pin _
    apply wpx_mono (verifyPin_keepsWhole whole)
    exact fun _ _ _ left => ⟨fun _ _ _ => left, fun _ _ => left⟩

/-! ## Runs -/

theorem Tpm.Whole.put (whole : t.Whole) (left : acc.Whole) : (t.put serves acc).Whole := by
  intro uid' serves' acc' shows_
  by_cases same : uid' = uid
  · subst same
    obtain rfl := shows_.unique Tpm.put_shows
    exact left
  · exact whole uid' serves' acc' ((put_shows_other same).1 shows_)

theorem Tpm.empty_whole : Tpm.empty.Whole := by
  intro uid serves acc shows_
  obtain rfl := shows_.unique (⟨rfl, rfl⟩ : Tpm.empty.Shows serves ⟨.absent, .absent⟩)
  simp [Account.Whole]

/-- One run. -/
theorem Invocation.Happens.whole {x : Invocation} (happens : x.Happens Tpm.Whole)
    (onPin : x.command.OnPin) (accounts : x.before.1.Accounts) (whole : x.before.1.Whole) :
    x.after.1.Accounts ∧ x.after.1.Whole := by
  have unmoved : Unmoved (fun x => x.1.Accounts) (fun x => x.1.Whole) x.before.1 x.before.2 :=
    ⟨fun _ => accounts, fun _ => whole, fun _ _ accounts whole => ⟨accounts, whole⟩⟩
  have user : ∀ (command : UserCommand) username, wpx (frailHost Tpm.Whole) (fun x => x.1.Accounts)
      (Util.main x.env (command.named username)) (fun _ x => x.1.Whole) (x.before.1,
        .start x.before.2) := by
    intro command username
    apply wpx_main_user unmoved accounts
    intro name uid serves acc found shows_
    have kept := @program_keepsWhole x.before.2 x.env name uid serves x.before.1 acc command found
        (whole uid serves acc shows_)
    have named : wpx (frailHost Tpm.Whole) (fun x => x.1.Accounts) (command.program x.env name)
        (fun _ y => LeftWhole serves x.before.1 y.1) (x.before.1.put serves acc,
          .start x.before.2) := by
      apply Prog.wp_behaviour kept fun _ _ _ _ step => step
      rintro ⟨_, u⟩ ⟨a, rfl⟩
      exact accounts.put a
    apply wpx_mono named
    rintro r ⟨_, u⟩ _ ⟨a, rfl, left⟩
    exact whole.put left
  have run : wpx (frailHost Tpm.Whole) (fun x => x.1.Accounts) (Util.main x.env x.command)
      (fun _ x => x.1.Whole)
      (x.before.1, .start x.before.2) := by
    cases command : x.command with
    | setup username => exact user .setup username
    | change username => exact user .change username
    | delete username => exact user .delete username
    | test username => exact user .test username
    | status username => exact wpx_main_status unmoved accounts
    | masterKey op =>
      rw [command] at onPin
      exact onPin.elim
  obtain ⟨o, u, ends, -, -⟩ := happens
  obtain ⟨accounts', killed, ended⟩ := Prog.wp_ends run ends
  refine ⟨accounts', ?_⟩
  cases o with
  | none => exact killed rfl
  | some r => exact ended r rfl

/-- In every run in which no command fails and no process is killed while a slot is half
defined, root can bring any user back to a PIN that works. -/
theorem whole_session_restores {xs : List Invocation} {s s' : Tpm × KeyStore}
    (accounts : s.1.Accounts) (whole : s.1.Whole)
    (session : Session (fun x => x.Happens Tpm.Whole ∧ x.command.OnPin) xs s s') :
    ∀ (uid : UInt32) (_ : Serves uid) (ops : KeyOps) (env : Env) (name line : Str) (pin : Pin),
      env.Helps name uid →
      env.policy.Takes line pin → Restores ops s'.2 env name line uid pin s'.1 := by
  induction session with
  | nil s =>
    intro uid serves ops env name line pin helps takes
    obtain ⟨acc, shows_⟩ := accounts uid serves
    have restores :=
      (@restores_iff ops s.2 env name line uid serves s.1 acc pin helps takes).2
        (whole uid serves acc shows_)
    rwa [shows_.eq_put] at restores
  | @cons x xs s' first _ ih =>
    obtain ⟨accounts', whole'⟩ := first.1.whole first.2 accounts whole
    exact ih accounts' whole'

end Wedged

/-! ## Samples -/

/-- Root, in machine mode under the default policy. -/
def helper : Env := { sampleEnv with uid := 0, euid := 0 }

theorem helper_helps : helper.Helps "alice".toList 1000 := ⟨rfl, rfl, rfl⟩

theorem helper_takes : helper.policy.Takes "4242".toList plainPin where
  made := Pin.new_eq_ok.2 ⟨by decide +kernel, by decide +kernel⟩
  short := by decide +kernel
  fits := by decide +kernel
  positive := by decide
  low := by decide

/-- A setup of a user whose process is killed after `n` calls. -/
def killedSetup (n : Nat) : Invocation where
  env := sampleEnv
  command := .setup none
  before := (Tpm.empty, ⟨none, none, none⟩)
  typed := (Prog.after (process idleKeys) n (Util.main sampleEnv (.setup none)).run
    (Tpm.empty, ⟨[.ok "4242".toList], .start ⟨none, none, none⟩⟩)).2.console.typed
  after := ((Prog.after (process idleKeys) n (Util.main sampleEnv (.setup none)).run
    (Tpm.empty, ⟨[.ok "4242".toList], .start ⟨none, none, none⟩⟩)).1,
    (Prog.after (process idleKeys) n (Util.main sampleEnv (.setup none)).run
      (Tpm.empty, ⟨[.ok "4242".toList], .start ⟨none, none, none⟩⟩)).2.console.keys)

theorem killedSetup_happens {P : Tpm → Prop} {n : Nat} (allowed : P (killedSetup n).after.1) :
    (killedSetup n).Happens P := by
  have within : Within (process idleKeys) (Prod.map id Stdin.console) (frailHost P) :=
    (Tpm.exec.within_faulty P).sum (Stdin.handler_within idleKeys)
  obtain ⟨o, ends⟩ :=
    Prog.ends_after (K := fun s => P s.1) within (Util.main sampleEnv (.setup none)).run n
      ((Tpm.empty, ⟨[.ok "4242".toList], .start ⟨none, none, none⟩⟩) : Tpm × Stdin) allowed
  exact ⟨o, _, ends, rfl, rfl⟩

/-- A setup that is killed early, and one that is not; then root helps. -/
theorem whole_session_restores_once :
    Restores idleKeys
      (Invocation.given idleKeys sampleEnv (.setup none) (killedSetup 3).after
        [.ok "0042".toList]).after.2
      helper "alice".toList "4242".toList 1000 plainPin
      (Invocation.given idleKeys sampleEnv (.setup none) (killedSetup 3).after
        [.ok "0042".toList]).after.1 := by
  have allowed : (killedSetup 3).after.1.Whole := Tpm.empty_whole
  have session : Session (fun x => x.Happens Tpm.Whole ∧ x.command.OnPin)
      [killedSetup 3, .given idleKeys sampleEnv (.setup none) (killedSetup 3).after [.ok "0042".toList]]
      (Tpm.empty, ⟨none, none, none⟩) _ :=
    .cons ⟨killedSetup_happens allowed, trivial⟩ (.cons ⟨Invocation.given_happens, trivial⟩ (.nil _))
  exact whole_session_restores Tpm.empty_accounts Tpm.empty_whole session 1000 serves_thousand _ _ _ _ _
    helper_helps helper_takes

/-- A setup that is killed between the definition and the write of the slot. -/
theorem session_wedges : ¬ ∀ (xs : List Invocation) (keys : KeyStore) (s' : Tpm × KeyStore),
    Session (fun x => x.Happens (fun _ => True) ∧ x.command.OnPin) xs (Tpm.empty, keys) s' →
      ∀ (uid : UInt32) (_ : Serves uid) (ops : KeyOps) (env : Env) (name line : Str) (pin : Pin),
        env.Helps name uid →
        env.policy.Takes line pin → Restores ops s'.2 env name line uid pin s'.1 := by
  intro claim
  have session : Session (fun x => x.Happens (fun _ => True) ∧ x.command.OnPin) [killedSetup 15]
      (Tpm.empty, ⟨none, none, none⟩) _ := .cons ⟨killedSetup_happens trivial, trivial⟩ (.nil _)
  have half : (killedSetup 15).after.1.Shows serves_thousand ⟨.unwritten plainPin.auth, .absent⟩ :=
    ⟨by decide +kernel, by decide +kernel⟩
  have restores :=
    claim _ _ _ session 1000 serves_thousand idleKeys helper _ _ _ helper_helps helper_takes
  rw [← half.eq_put, restores_iff helper_helps helper_takes] at restores
  exact restores _ rfl

end Pinpam
