import Pinpam.Core.Secrecy
import Pinpam.Pam.Verdicts
import Pinpam.Util.Remaining

/-!
# Visits

What someone can do at the host without being the TPM: run pinutil as any user on any input,
or log in as any user and answer the prompt. What is seen of it is everything that is said
on the way, and the result. However many visits there are, and however each is chosen by what
the ones before have shown, they tell no more of a PIN than the attempts that are left.
-/

namespace Pinpam
set_option autoImplicit false
open Pinpam.Effect Pinpam.Effect.Fallible

inductive Visit where
  | pinutil (env : Env) (command : Commands) (input : List (Except Str Str))
  /-- a login, whose helper runs in `env` -/
  | login (env : Env) (policy : PinPolicy) (username : Str) (args : ModuleArgs)
      (uidOf : Str → Option UInt32) (authtok : Option Str) (typed : Str)

instance : Interface Visit where
  Answer
    | .pinutil .. => List ((c : HostCmd) × Answer c) × Except Stop Unit
    | .login .. => List ((c : PamCmd) × Answer c) × PamReturnCode

/-- The calls besides the TPM commands. -/
def hostCalls (calls : List ((c : UtilCmd) × Answer c)) : List ((c : HostCmd) × Answer c) :=
  calls.filterMap fun x =>
    match x with
    | ⟨.inl _, _⟩ => none
    | ⟨.inr c, r⟩ => some ⟨c, r⟩

/-- The host, with a TPM that fails no command. -/
def Visit.serve (ops : KeyOps) : Handler Visit (Tpm × KeyStore)
  | .pinutil env command input, s =>
    let out := (Util.main env command).run.dialogue (process ops) (s.1, ⟨input, .start s.2⟩)
    ((hostCalls out.1.1, out.1.2), out.2.1, out.2.2.console.keys)
  | .login env policy username args uidOf authtok typed, s =>
    let out := (Pam.authenticateUser policy username args uidOf authtok).run.dialogue
      (Pam.onHost ops env s.2 typed) s.1
    ((out.1.1, returnCode out.1.2), out.2, s.2)

section Visits

variable {ops : KeyOps} {env : Env} {keys : KeyStore} {username typed : Str} {uid : UInt32}
  {serves : Serves uid}

/-- Only reads, and the calls of the process. -/
def Reads : UtilCmd → Prop
  | .inl c => c.Quiet
  | .inr _ => True

/-- The status is made of reads. -/
theorem showStatus_reads : OnlyX Reads (Util.showStatus env username) := by
  have human : ∀ text, OnlyX Reads (Util.human env text) := fun _ => onlyX_human trivial
  have slot : ∀ uid, OnlyX Reads (Util.getAttemptInfo uid) := fun uid =>
    onlyX_bind (onlyX_inl (onlyX_bind onlyX_ofResult fun _ => readPinSlotOwner_quiet))
      fun _ => onlyX_pure
  unfold Util.showStatus
  apply onlyX_bind onlyX_ofResult
  intro uid
  apply onlyX_bind (onlyX_inl (onlyX_bind (onlyX_mapErr (onlyX_op trivial)) fun _ => onlyX_pure))
  intro _
  apply onlyX_bind (human _)
  intro _
  apply onlyX_bind (slot uid)
  rintro (_ | info)
  · exact onlyX_bind (human _) fun _ => onlyX_pure
  · apply onlyX_bind (human _)
    intro _
    apply onlyX_bind (human _)
    intro _
    exact onlyX_bind (human _) fun _ => onlyX_pure

theorem status_reads :
    OnlyX Reads (Util.main env (.status (some username))) := by
  have handles : ∀ res : PinResult (Option AttemptInfo), OnlyX Reads (Util.handleResult env res) := by
    intro res
    unfold Util.handleResult
    by_cases machine : env.machine = true
    · simp only [machine, if_true]
      apply onlyX_bind (onlyX_op trivial)
      intro _
      cases res with
      | ok info => exact onlyX_pure
      | error e => exact onlyX_throw
    · rw [if_neg machine]
      cases res with
      | ok info => exact onlyX_pure
      | error e => exact onlyX_bind (onlyX_op trivial) fun _ => onlyX_throw
  exact onlyX_bind onlyX_ofResult fun _ => onlyX_bind (onlyX_attempt showStatus_reads) handles

/-- The worlds of the host: a value in the slot of the user, and what lies beside the TPM. -/
abbrev beside {U : Type} (serves : Serves uid) (x : Masked × U) (a : Auth) : Tpm × U :=
  (x.1.reveal serves a, x.2)

/-- What pinutil conceals, whatever it is run on. -/
theorem process_conceals (o : UtilCmd) :
    Conceals (beside serves) (fun x => x.1.left) (process ops o) :=
  .sum (fun c (_ : True) => exec_conceals c) o fun _ _ => trivial

theorem statusOutput_conceals : Conceals (Masked.reveal serves) Masked.left
    fun t => (statusOutput ops env username t keys, t) := by
  apply Conceals.still (f := fun t => (statusOutput ops env username t keys,
    (exec (process ops) (Util.main env (.status (some username))) (t, ⟨[], .start keys⟩)).2.1))
  intro w
  have each : ∀ c : NvCmd, c.Quiet →
      Conceals (fun (_ : Unit) => w.reveal serves) (fun _ => 0) (Tpm.exec c) := by
    rintro c quiet _
    obtain ⟨r, answer⟩ := @exec_alike uid serves c quiet w
    exact .same () r (Nat.le_refl _) answer
  have run : Conceals (fun (x : Unit × Stdin) a => (w.reveal serves a, x.2)) (fun _ => 0)
      (exec (process ops) (Util.main env (.status (some username)))) := by
    apply Conceals.run _ status_reads
    intro o only
    apply Conceals.sum each o
    rintro c rfl
    exact only
  exact .map (fun x => (⟨exitStatus x.1, x.2.console.printed.head?⟩ : Output))
    (@Conceals.fst _ _ _ _ _ (fun (_ : Unit) => w.reveal serves) (fun _ => 0) _ run _)

theorem helperTest_conceals (text : Str) :
    Conceals (Masked.reveal serves) Masked.left (helperTest ops env keys username text) := by
  have run : Conceals (beside serves) (fun x => x.1.left)
      (exec (process ops) (Util.main env (.test (some username)))) :=
    .run (fun o (_ : True) => process_conceals o) (Prog.only_any (fun _ => trivial) _)
  exact .map (fun x => (⟨exitStatus x.1, x.2.console.printed.head?⟩ : Output))
    (@Conceals.fst _ _ _ _ _ (Masked.reveal serves) Masked.left _ run _)

/-- What a login conceals, call by call. -/
theorem onHost_conceals (o : PamCmd) :
    Conceals (Masked.reveal serves) Masked.left (Pam.onHost ops env keys typed o) := by
  cases o with
  | sendMessage style text => exact .ret _
  | converse prompt => exact .ret _
  | pinutilStatus username => exact .map Except.ok statusOutput_conceals
  | pinutilTest username text => exact .map Except.ok (helperTest_conceals text)

/-- What a visit gives away. -/
theorem serve_conceals (visit : Visit) :
    Conceals (beside serves) (fun x => x.1.left) (Visit.serve ops visit) := by
  cases visit with
  | pinutil env command input =>
    have run : Conceals (beside serves) (fun x => x.1.left)
        ((Util.main env command).run.dialogue (process ops)) :=
      .program (fun o (_ : True) => process_conceals o) (Prog.only_any (fun _ => trivial) _)
    have each : ∀ keys, Conceals (Masked.reveal serves) Masked.left fun t =>
        let out := (Util.main env command).run.dialogue (process ops) (t, ⟨input, .start keys⟩)
        (((hostCalls out.1.1, out.1.2), out.2.2.console.keys), out.2.1) := fun keys =>
      .map (fun x => ((hostCalls x.1.1, x.1.2), x.2.console.keys))
        (@Conceals.fst _ _ _ _ _ (Masked.reveal serves) Masked.left _ run ⟨input, .start keys⟩)
    exact .frame each
  | login env policy username args uidOf authtok typed =>
    have each : ∀ keys, Conceals (Masked.reveal serves) Masked.left fun t =>
        let out := (Pam.authenticateUser policy username args uidOf authtok).run.dialogue
          (Pam.onHost ops env keys typed) t
        (((out.1.1, returnCode out.1.2), keys), out.2) := fun keys =>
      .map (fun x => ((x.1, returnCode x.2), keys))
        (.program (fun o (_ : True) => onHost_conceals o) (Prog.only_any (fun _ => trivial) _))
    exact .frame each

/-- Whoever visits, and however each visit is chosen: all PINs of a slot but as many as there
are attempts left are told nothing of by any of the answers. -/
theorem visits_conceal {α : Type} (ops : KeyOps) (serves : Serves uid) (t : Tpm) (keys : KeyStore)
    (tag : TagState) (c : PinCounters) (visitor : Prog Visit α) :
    ∃ guessed : List Auth, guessed.length ≤ c.pinLimit.toNat - c.pinCount.toNat ∧
      ∀ a, a ∉ guessed → ∀ b, b ∉ guessed →
        (visitor.dialogue (Visit.serve ops) (t.put serves ⟨.written a c, tag⟩, keys)).1 =
        (visitor.dialogue (Visit.serve ops) (t.put serves ⟨.written b c, tag⟩, keys)).1 := by
  have alike := (Conceals.program (fun visit (_ : True) => @serve_conceals ops uid serves visit)
    (Prog.only_any (fun _ => trivial) visitor)).alike
    (⟨t.set (tagHandle uid serves) tag.index, some c⟩, keys)
  simp only [beside, masked_put] at alike
  exact alike

end Visits

/-! ## Samples -/

/-- A visitor who tests a PIN and logs in with another. -/
def sampleVisitor : Prog Visit Unit := do
  let _ ← Prog.op (.pinutil sampleEnv (.test none) [.ok "4242".toList])
  let _ ← Prog.op (.login sampleEnv .default "alice".toList .default sampleEnv.uidOf none
    "4243".toList)
  pure ()

theorem visits_conceal_once : ∃ guessed : List Auth, guessed.length ≤ 1 ∧
    ∀ a, a ∉ guessed → ∀ b, b ∉ guessed →
      (sampleVisitor.dialogue (Visit.serve idleKeys)
          (Tpm.empty.put serves_thousand ⟨.written a ⟨2, 3⟩, .absent⟩, ⟨none, none, none⟩)).1 =
        (sampleVisitor.dialogue (Visit.serve idleKeys)
          (Tpm.empty.put serves_thousand ⟨.written b ⟨2, 3⟩, .absent⟩, ⟨none, none, none⟩)).1 :=
  visits_conceal idleKeys serves_thousand Tpm.empty ⟨none, none, none⟩ .absent ⟨2, 3⟩ sampleVisitor

end Pinpam
