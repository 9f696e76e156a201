import Pinpam.Util.Reports

/-!
# Runs of pinutil, one after the other

A run ends with its exit or is killed between two calls. It touches no account but the one
it names, so what holds of every account it may meet holds of the run; users without
indices have no slot, whatever is read.
-/

namespace Pinpam
set_option autoImplicit false
open Pinpam.Effect Pinpam.Effect.Fallible

/-- A TPM that may fail its commands where `P` holds, and any host. -/
abbrev frailHost (P : Tpm → Prop) : Behaviour UtilCmd (Tpm × Console) :=
  (Faulty Tpm.exec P).sum Console.any

/-- One run of pinutil: the lines it read, and the TPM and the master key before and after. -/
structure Invocation where
  env : Env
  command : Commands
  before : Tpm × KeyStore
  typed : List Str
  after : Tpm × KeyStore

/-- The run ended on a TPM that fails its commands where `P` holds at most, or was killed
there. -/
def Invocation.Happens (P : Tpm → Prop) (x : Invocation) : Prop :=
  ∃ o u, Ends (frailHost P) (fun s => P s.1) (Util.main x.env x.command).run (x.before.1,
    .start x.before.2) o (x.after.1, u) ∧
    u.typed = x.typed ∧ u.keys = x.after.2

/-- One run after the other. -/
inductive Session (Φ : Invocation → Prop) :
    List Invocation → Tpm × KeyStore → Tpm × KeyStore → Prop where
  | nil (s : Tpm × KeyStore) : Session Φ [] s s
  | cons {x : Invocation} {xs : List Invocation} {s : Tpm × KeyStore} (first : Φ x)
      (rest : Session Φ xs x.after s) :
      Session Φ (x :: xs) x.before s

section Invocations

variable {P : Tpm → Prop} {C Q : Tpm × Console → Prop} {env : Env} {username : Option Str} {t : Tpm}
  {keys : KeyStore}

/-- The run of the process on a given input. -/
def Invocation.given (ops : KeyOps) (env : Env) (command : Commands) (s : Tpm × KeyStore)
    (input : List (Except Str Str)) :
    Invocation where
  env := env
  command := command
  before := s
  typed := (exec (process ops) (Util.main env command) (s.1, ⟨input, .start s.2⟩)).2.2.console.typed
  after := ((exec (process ops) (Util.main env command) (s.1, ⟨input, .start s.2⟩)).2.1,
    (exec (process ops) (Util.main env command) (s.1, ⟨input, .start s.2⟩)).2.2.console.keys)

theorem Invocation.given_happens {ops : KeyOps} {command : Commands} {s : Tpm × KeyStore}
    {input : List (Except Str Str)} :
    (Invocation.given ops env command s input).Happens P :=
  ⟨_, _, Prog.ends_run ((Tpm.exec.within_faulty P).sum (Stdin.handler_within ops)) _ (s.1,
    (⟨input, .start s.2⟩ : Stdin)), rfl, rfl⟩

/-! ## Commands on a user -/

/-- What a rule for a command asks for where nothing has changed. -/
structure Unmoved (C Q : Tpm × Console → Prop) (t : Tpm) (keys : KeyStore) : Prop where
  crash : ∀ lines, C (t, (Console.start keys).types lines)
  done : ∀ lines, Q (t, (Console.start keys).types lines)
  /-- a report says nothing of the TPM -/
  reported : ∀ (x : Tpm × Console) json, C x → Q x → C (x.1, x.2.prints json) ∧ Q (x.1, x.2.prints json)

theorem Unmoved.report {α : Type} [Serialize α] {command : UtilM α} (unmoved : Unmoved C Q t keys)
    (body : wpx (frailHost P) C command (fun _ => Q) (t, .start keys)) :
    wpx (frailHost P) C (Util.report env command) (fun _ => Q) (t, .start keys) := by
  apply wpx_report
  refine wpx_mono body fun r x crash post => ?_
  unfold Env.reported
  split
  · exact unmoved.reported x _ crash post
  · exact ⟨crash, post⟩

theorem Unmoved.start (unmoved : Unmoved C Q t keys) : C (t, .start keys) ∧ Q (t, .start keys) := by
  have crash := unmoved.crash []
  have done := unmoved.done []
  rw [Console.types_nil] at crash done
  exact ⟨crash, done⟩

theorem wpx_main_user {command : UserCommand} (unmoved : Unmoved C Q t keys) (accounts : t.Accounts)
    (known : ∀ name uid (serves : Serves uid) acc, env.getUidFromUsername name = .ok uid →
      t.Shows serves acc →
      wpx (frailHost P) C (command.program env name) (fun _ => Q) (t.put serves acc, .start keys)) :
    wpx (frailHost P) C (Util.main env (command.named username)) (fun _ => Q) (t, .start keys) := by
  rw [main_named]
  apply wpx_onUser unmoved.start.1 fun _ => unmoved.start.2
  intro name _
  apply unmoved.report
  rcases getUid_cases env name with missing | ⟨uid, -, found⟩
  · have refused : command.program env name = throw .userNotFound := by
      cases command
      all_goals
        simp only [UserCommand.program, Util.setupPin, Util.changePin, Util.deletePin,
          Util.testPin, missing]
        rfl
    rw [refused]
    exact unmoved.start
  by_cases serves : Serves uid
  · obtain ⟨acc, shows_⟩ := accounts uid serves
    have run := known name uid serves acc found shows_
    rwa [shows_.eq_put] at run
  · have serving : Serving (Faulty Tpm.exec P) uid none t := serving_overflow serves
    have kept : ∀ (e : PinError) (lines : List Str), Q (t, (Console.start keys).types lines) :=
      fun _ => unmoved.done
    cases command with
    | setup =>
      apply Util.wpx_setupPin found serving unmoved.crash kept
      intro _ _ line pin rest _ _
      rw [setupPin_overflow serves]
      exact ⟨unmoved.crash _, unmoved.done _⟩
    | change => exact Util.wpx_changePin found serving unmoved.crash kept (by simp) (by simp)
    | delete =>
      exact Util.wpx_deletePin found serving unmoved.crash kept (fun _ _ lines => unmoved.done lines)
        (by simp) (by simp)
    | test => exact Util.wpx_testPin found serving unmoved.crash kept (by simp)

/-- The status changes nothing. -/
theorem wpx_main_status (unmoved : Unmoved C Q t keys) (accounts : t.Accounts) :
    wpx (frailHost P) C (Util.main env (.status username)) (fun _ => Q) (t, .start keys) := by
  obtain ⟨crash, done⟩ := unmoved.start
  apply wpx_onUser crash fun _ => done
  intro name _
  apply unmoved.report
  rcases getUid_cases env name with missing | ⟨uid, -, found⟩
  · rw [Util.showStatus, missing]
    exact ⟨crash, done⟩
  by_cases serves : Serves uid
  · obtain ⟨acc, shows_⟩ := accounts uid serves
    rw [← shows_.eq_put] at crash done ⊢
    exact Util.wpx_showStatus found serving_faulty crash fun _ => done
  · have serving : Serving (Faulty Tpm.exec P) uid none t := serving_overflow serves
    exact Util.wpx_showStatus found serving crash fun _ => done

end Invocations

/-! ## Samples -/

/-- A user sets up a PIN. -/
def userSetup : Invocation :=
  Invocation.given idleKeys sampleEnv (.setup none) (Tpm.empty, ⟨none, none, none⟩) [.ok "4242".toList]

end Pinpam
