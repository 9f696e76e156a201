import Pinpam.Pam.Session
import Pinpam.Util.Reports

/-!
# The pipe to the helper

The module writes a PIN on a line of the helper's input, and the helper trims and
validates the first line that it reads. What arrives is the PIN unless it has a newline
inside, which no line has that was typed.
-/

namespace Pinpam
set_option autoImplicit false
open Pinpam.Effect Pinpam.Effect.Fallible

/-- What `read_line` gives of a text, each line with its newline. -/
def readLines : Str → List Str
  | [] => []
  | c :: s =>
    if c = '\n' then [c] :: readLines s
    else
      match readLines s with
      | [] => [[c]]
      | line :: rest => (c :: line) :: rest

/-- The input of a process that a text was written to. -/
def Stdin.piped (text : Str) (keys : KeyStore) : Stdin := ⟨(readLines text).map .ok, .start keys⟩

/-- A line without a newline inside: the last one need not end in one. -/
def TypedAs (text line : Str) : Prop := '\n' ∉ text ∧ (line = text ∨ line = text ++ ['\n'])

/-- The `authValue` of an index that a command presents. -/
def NvCmd.presented : NvCmd → Option Auth
  | .nvRead (.index a) _ _ _ => some a
  | _ => none

/-- Reads no line, and presents no `authValue`. -/
def UtilCmd.Waits : UtilCmd → Prop
  | .inl c => c.presented = none
  | .inr f => f ≠ .readLine

/-- The process on a given input, with a TPM that may fail any command where `P` holds. -/
abbrev frailInput (ops : KeyOps) (P : Tpm → Prop) : Behaviour UtilCmd (Tpm × Stdin) :=
  (Faulty Tpm.exec P).sum (Stdin.handler ops).graph

/-- What `test` makes of the answer of `verify_pin`, in machine mode. -/
def tested : PinResult VerificationResult → PinResult Unit
  | .ok (.success _) => .ok ()
  | .ok (.invalid locked) => .error (.incorrectPin locked)
  | .ok .lockedOut => .error .pinIsLocked
  | .error e => .error e

/-- A run of `test` from this TPM that ends with `verify_pin` of the PIN, which is made of the one
line that was read; before it nothing is presented or changed. Or it is refused and reads no line. -/
inductive Checks (ops : KeyOps) (P : Tpm → Prop) (env : Env) (uid : UInt32) (pin : Pin) (t : Tpm) :
    List (Event UtilCmd (Tpm × Stdin)) → PinResult Unit → Tpm × Stdin → Prop where
  | verified {before verify : List (Event UtilCmd (Tpm × Stdin))} {s : Stdin} {line : Str}
      {z : Tpm × Stdin} {result : PinResult VerificationResult} (typed : s.console.typed = [line])
      (made : Pin.new line env.policy = .ok pin)
      (silent : ∀ event ∈ before, ∀ c, event.op = .inl c → c.presented = none)
      (run : (manage (env.manager.verifyPin uid pin)).run.Runs (frailInput ops P) (t, s)
        verify result z) :
      Checks ops P env uid pin t (before ++ verify) (tested result) z
  | refused {events : List (Event UtilCmd (Tpm × Stdin))} {e : PinError} {z : Tpm × Stdin}
      (waits : ∀ event ∈ events, UtilCmd.Waits event.op) :
      Checks ops P env uid pin t events (.error e) z

/-- Every test of a helper under the policy, in machine mode and with the text on its input, hands
a PIN of these bytes to `verify_pin`. -/
def HelperTakes (policy : PinPolicy) (text : Str) (bytes : Bytes) : Prop :=
  ∃ pin : Pin, asBytes pin.str = bytes ∧
    ∀ (ops : KeyOps) (P : Tpm → Prop) (env : Env) (username : Str) (uid : UInt32) (t : Tpm)
      (keys : KeyStore) (events : List (Event UtilCmd (Tpm × Stdin))) (r : PinResult Unit)
      (z : Tpm × Stdin), env.policy = policy → env.machine = true → env.uidOf username = some uid →
        (Util.testPin env username).run.Runs (frailInput ops P) (t, .piped text keys) events r z →
          Checks ops P env uid pin t events r z

/-- Whatever a test of the PIN writes to the helper, the helper makes the PIN of it. -/
def Delivered (policy : PinPolicy) (pin : Pin) : Prop :=
  ∀ username events r, (Pam.runPinutilTest username pin).run.Runs Pam.any () events r () →
    ∀ event ∈ events, ∀ name text, event.op = .pinutilTest name text →
    HelperTakes policy text (asBytes pin.str)

section Lines

variable {s text line rest : Str} {policy : PinPolicy} {pin : Pin}

theorem readLines_line (single : '\n' ∉ s) :
    readLines (s ++ '\n' :: rest) = (s ++ ['\n']) :: readLines rest := by
  induction s with
  | nil => simp [readLines]
  | cons c s ih =>
    have other : c ≠ '\n' := fun same => single (same ▸ List.mem_cons_self)
    have inner : '\n' ∉ s := fun inside => single (List.mem_cons_of_mem c inside)
    simp [readLines, other, ih inner]

theorem mem_trim {c : Char} (member : c ∈ trim s) : c ∈ s :=
  (List.dropWhile_suffix isWhitespace).subset ((List.rdropWhile_prefix isWhitespace _).subset member)

/-- A newline at the end is trimmed off. -/
theorem trim_newline : trim (s ++ ['\n']) = trim s := by
  have white : isWhitespace '\n' = true := by decide
  induction s with
  | nil => rfl
  | cons c s ih =>
    by_cases space : isWhitespace c = true
    · unfold trim at ih ⊢
      rw [List.cons_append, List.dropWhile_cons_of_pos space, List.dropWhile_cons_of_pos space]
      exact ih
    · unfold trim
      rw [List.cons_append, List.dropWhile_cons_of_neg space,
        List.dropWhile_cons_of_neg space, ← List.cons_append]
      exact List.rdropWhile_concat_pos _ _ _ white

theorem TypedAs.trim_eq (typed : TypedAs text line) : trim line = trim text := by
  obtain ⟨-, rfl | rfl⟩ := typed
  · rfl
  · exact trim_newline

/-- A PIN is made of the trimmed text. -/
theorem Pin.new_trim {s' : Str} (same : trim s = trim s') :
    Pin.new s policy = .ok pin ↔ Pin.new s' policy = .ok pin := by
  rw [Pin.new_eq_ok, Pin.new_eq_ok, same]

end Lines

section Pipe

variable {policy : PinPolicy} {pin : Pin} {s : Str} {ops : KeyOps} {env : Env} {t : Tpm}
  {keys : KeyStore} {prompt : Text} {attempts : Option (UInt32 × UInt32)}

theorem waits_of_quiet {α : Type} {x : PinM α} (quiet : OnlyX NvCmd.Quiet x) :
    OnlyX UtilCmd.Waits (manage x) := by
  apply onlyX_inl
  apply Prog.only_mono quiet
  intro c silent
  cases c with
  | nvRead auth i size offset =>
    cases auth with
    | index a => exact silent.elim
    | owner => rfl
    | policy session => rfl
  | _ => rfl

/-- A run of such an operation leaves the TPM and the input. -/
theorem runs_quiet {α : Type} {x : PinM α} {P : Tpm → Prop} {z : Tpm × Stdin} {r : PinResult α}
    {events : List (Event UtilCmd (Tpm × Stdin))} {s : Stdin} (quiet : OnlyX NvCmd.Quiet x)
    (run : (manage x).run.Runs (frailInput ops P) (t, s) events r z) :
    z = (t, s) ∧ ∀ event ∈ events, UtilCmd.Waits event.op := by
  have same : wpx (frailInput ops P) (fun z => z = (t, s)) (manage x) (fun _ z => z = (t, s))
      (t, s) := by
    apply wpx_inl.2
    have left := @wpx_quiet t PinError α P x quiet
    exact Prog.wp_behaviour (wpx_mono left fun _ _ _ same => by rw [same]) (fun _ _ _ _ act => act)
      fun _ same => by rw [same]
  exact ⟨run.post same, run.only (waits_of_quiet quiet)⟩

theorem new_quiet {policy : PinPolicy} : OnlyX NvCmd.Quiet (PinManager.new policy) :=
  onlyX_bind (onlyX_mapErr (onlyX_op trivial)) fun _ => onlyX_pure

theorem getPinSlot_quiet {uid : UInt32} : OnlyX NvCmd.Quiet (getPinSlot uid) :=
  onlyX_bind onlyX_ofResult fun _ => readPinSlotOwner_quiet

/-- A manager that was made is that of the policy. -/
theorem runs_newManager {P : Tpm → Prop} {z z' : Tpm × Stdin} {m : PinManager}
    {events : List (Event UtilCmd (Tpm × Stdin))}
    (run : (Util.newManager env).run.Runs (frailInput ops P) z events (.ok m) z') : m = env.manager := by
  have made : wpx (frailInput ops P) (fun _ => True) (Util.newManager env)
      (fun r _ => ∀ m, r = .ok m → m = env.manager) z := by
    apply wpx_inl.2
    apply wpx_next (wpx_ofTss _)
    refine ⟨trivial, fun r _ _ => ⟨trivial, ?_⟩⟩
    cases r with
    | error e => exact nofun
    | ok _ =>
      refine ⟨trivial, ?_⟩
      rintro _ ⟨⟩
      rfl
  exact run.post made _ rfl

theorem runs_getAttemptInfo {P : Tpm → Prop} {uid : UInt32} {z : Tpm × Stdin} {u : Stdin}
    {r : PinResult (Option AttemptInfo)} {events : List (Event UtilCmd (Tpm × Stdin))}
    (run : (Util.getAttemptInfo uid).run.Runs (frailInput ops P) (t, u) events r z) :
    z = (t, u) ∧ ∀ event ∈ events, UtilCmd.Waits event.op := by
  obtain ⟨e, rfl, left⟩ | ⟨asked, slot, z', rest, rfl, left, run⟩ := runs_of_bind run
  · exact runs_quiet getPinSlot_quiet left
  · cases run
    rw [List.append_nil]
    exact runs_quiet getPinSlot_quiet left

theorem runs_readLine {P : Tpm → Prop} {z : Tpm × Stdin} {r : PinResult Str} {line : Str}
    {rest : List (Except Str Str)} {u : Console} {events : List (Event UtilCmd (Tpm × Stdin))}
    (run : readLine.run.Runs (frailInput ops P) (t, ⟨.ok line :: rest, u⟩) events r z) :
    r = .ok line ∧ z = (t, ⟨rest, u.types [line]⟩) ∧
      ∀ event ∈ events, event.op = .inr .readLine := by
  cases run with
  | call act done =>
    obtain ⟨answered, same⟩ := act
    cases done
    obtain ⟨rfl, left⟩ := Prod.mk.inj answered
    exact ⟨rfl, Prod.ext same left.symm, List.forall_mem_singleton.2 rfl⟩

/-- The helper makes the PIN of the first line of its input. -/
theorem runs_promptPin {P : Tpm → Prop} {z : Tpm × Stdin} {r : PinResult Pin} {text line : Str}
    {lines : List Str} {events : List (Event UtilCmd (Tpm × Stdin))}
    (first : readLines text = line :: lines) (made : Pin.new line env.policy = .ok pin)
    (machine : env.machine = true)
    (run : (Util.promptPin env prompt attempts).run.Runs (frailInput ops P) (t, .piped text keys)
      events r z) :
    r = .ok pin ∧ z = (t, ⟨lines.map .ok, (Console.start keys).types [line]⟩) ∧
      ∀ event ∈ events, event.op = .inr .readLine := by
  unfold Util.promptPin at run
  rw [if_pos machine] at run
  have piped : Stdin.piped text keys = ⟨.ok line :: lines.map .ok, .start keys⟩ := by
    rw [Stdin.piped, first, List.map_cons]
  rw [piped] at run
  obtain ⟨e, rfl, left⟩ | ⟨read, _, z', rest, rfl, left, run⟩ := runs_of_bind run
  · obtain ⟨no, -, -⟩ := runs_readLine left
    cases no
  · obtain ⟨entered, same, reads⟩ := runs_readLine left
    cases entered
    rw [made] at run
    cases run
    rw [List.append_nil]
    exact ⟨rfl, same, reads⟩

/-- A test hands the PIN of the first line of its input to `verify_pin`. -/
theorem testPin_checks {uid : UInt32} {P : Tpm → Prop} {z : Tpm × Stdin} {r : PinResult Unit}
    {events : List (Event UtilCmd (Tpm × Stdin))} {username text line : Str} {lines : List Str}
    (first : readLines text = line :: lines) (made : Pin.new line env.policy = .ok pin)
    (machine : env.machine = true) (resolved : env.uidOf username = some uid)
    (run : (Util.testPin env username).run.Runs (frailInput ops P) (t, .piped text keys) events r z) :
    Checks ops P env uid pin t events r z := by
  have found : env.getUidFromUsername username = .ok uid := by rw [Env.getUidFromUsername, resolved]
  have unpresented : ∀ {c : UtilCmd}, c.Waits → ∀ c', c = .inl c' → c'.presented = none := by
    rintro _ waits c rfl
    exact waits
  unfold Util.testPin at run
  rw [found, ofResult_ok_bind] at run
  split at run
  · cases run
    exact .refused (List.forall_mem_nil _)
  obtain ⟨e, rfl, left⟩ | ⟨began, m, z₁, rest, rfl, left, run⟩ := runs_of_bind run
  · exact .refused (runs_quiet new_quiet left).2
  obtain rfl := runs_newManager left
  obtain ⟨rfl, waits⟩ := runs_quiet new_quiet left
  obtain ⟨e, rfl, left⟩ | ⟨asked, info, z₂, rest, rfl, left, run⟩ := runs_of_bind run
  · have quiet := runs_getAttemptInfo left
    exact .refused (List.forall_mem_append.2 ⟨waits, quiet.2⟩)
  obtain ⟨rfl, waits'⟩ := runs_getAttemptInfo left
  rw [← List.append_assoc]
  have waited : ∀ event ∈ began ++ asked, UtilCmd.Waits event.op :=
    List.forall_mem_append.2 ⟨waits, waits'⟩
  cases info with
  | none =>
    rw [human_machine machine] at run
    cases run
    rw [List.append_nil]
    exact .refused waited
  | some info =>
    dsimp only at run
    split at run
    · rw [human_machine machine] at run
      cases run
      rw [List.append_nil]
      exact .refused waited
    obtain ⟨e, rfl, left⟩ | ⟨read, _, z₃, rest, rfl, left, goes⟩ := runs_of_bind run
    · obtain ⟨no, -, -⟩ := runs_promptPin first made machine left
      cases no
    obtain ⟨entered, same, reads⟩ := runs_promptPin first made machine left
    cases entered
    subst same
    rw [← List.append_assoc]
    have before : ∀ event ∈ began ++ asked ++ read, ∀ c, event.op = .inl c → c.presented = none := by
      intro event member
      rcases List.mem_append.1 member with early | late
      · exact unpresented (waited event early)
      · intro c command
        rw [reads event late] at command
        cases command
    obtain ⟨e, rfl, left⟩ | ⟨verify, result, z₄, rest, rfl, left, ends⟩ := runs_of_bind goes
    · exact .verified rfl made before left
    · rcases result with data | locked | _
      all_goals
        cases ends
        rw [List.append_nil]
        exact .verified rfl made before left

/-- What waits reads no line. -/
theorem runs_waits {P : Tpm → Prop} {z z' : Tpm × Stdin} {α : Type} {x : UtilM α} {r : PinResult α}
    {events : List (Event UtilCmd (Tpm × Stdin))}
    (run : x.run.Runs (frailInput ops P) z events r z')
    (waits : ∀ event ∈ events, UtilCmd.Waits event.op) :
    z'.2.console.typed = z.2.console.typed := by
  apply run.keeps (I := fun y => y.2.console.typed = z.2.console.typed) _ rfl
  rintro ⟨before, op, answer, after⟩ member act same
  have waits : UtilCmd.Waits op := waits _ member
  cases op with
  | inl c =>
    rw [← same, show after.2 = before.2 from act.2]
  | inr f =>
    rw [← same]
    have left : (Stdin.handler ops f before.2).2 = after.2 := congrArg Prod.snd act.1
    rw [← left]
    cases f with
    | readLine => exact absurd rfl waits
    | _ => rfl

/-- An operation of the manager leaves the input. -/
theorem runs_managed {P : Tpm → Prop} {α : Type} {x : PinM α} {r : PinResult α} {u : Stdin}
    {z : Tpm × Stdin} {events : List (Event UtilCmd (Tpm × Stdin))}
    (run : (manage x).run.Runs (frailInput ops P) (t, u) events r z) : z.2 = u := by
  have same : wpx (frailInput ops P) (fun _ => True) (manage x) (fun _ z => z.2 = u) (t, u) :=
    wpx_inl.2 (wpx_mono wpx_any fun _ _ _ _ => rfl)
  exact run.post same

/-- The PIN that is checked is made of the line that the run has read, if there is one. -/
theorem Checks.reads {P : Tpm → Prop} {uid : UInt32} {x : UtilM Unit} {r : PinResult Unit}
    {z : Tpm × Stdin} {text : Str} {events : List (Event UtilCmd (Tpm × Stdin))}
    (checks : Checks ops P env uid pin t events r z)
    (run : x.run.Runs (frailInput ops P) (t, .piped text keys) events r z) :
    (∃ line, z.2.console.typed = [line] ∧ Pin.new line env.policy = .ok pin) ∨
      z.2.console.typed = [] := by
  cases checks with
  | verified typed made _ verify =>
    rw [runs_managed verify]
    exact .inl ⟨_, typed, made⟩
  | refused waits => exact .inr (runs_waits run waits)

/-- A test of a PIN that is set and not locked reads a line. -/
theorem testPin_typed {uid : UInt32} {acc : Account} {line : Str} {rest : List (Except Str Str)}
    {u : Console} {info : AttemptInfo} (may : env.canAttemptPin uid = true)
    (there : acc.slot.data.map AttemptInfo.fromPinData = some info) (unlocked : info.locked = false) :
    (Machine.testPin env uid acc ⟨.ok line :: rest, u⟩).2.2.console.typed = u.typed ++ [line] := by
  unfold Machine.testPin
  rw [if_neg (not_not.2 may), there]
  dsimp only
  rw [unlocked, if_neg Bool.false_ne_true]
  have read : ((⟨.ok line :: rest, u⟩ : Stdin).promptPin env.policy).2 = ⟨rest, u.types [line]⟩ := rfl
  rcases prompted : (⟨.ok line :: rest, u⟩ : Stdin).promptPin env.policy with ⟨e | pin, s⟩
  · rw [prompted] at read
    rw [show s = _ from read]
    rfl
  · rw [prompted] at read
    rw [show s = _ from read]
    dsimp only
    rcases acc.verifyPin uid pin env.policy.maxAttempts with ⟨e | (data | locked | _), a⟩
    all_goals rfl

/-- The one event of a test writes the PIN with a newline. -/
theorem test_writes {S : Type} {R : Behaviour PamCmd S} {username : Str} {x x' : S}
    {events : List (Event PamCmd S)} {r : Except PamReturnCode (Except Str PinutilTestOutcome)}
    (run : (Pam.runPinutilTest username pin).run.Runs R x events r x') :
    ∃ answer, events = [⟨x, .pinutilTest username (pin.str ++ ['\n']), answer, x'⟩] := by
  cases run with
  | call act rest =>
    cases rest
    exact ⟨_, rfl⟩

theorem Delivered.takes (delivered : Delivered policy pin) :
    HelperTakes policy (pin.str ++ ['\n']) (asBytes pin.str) := by
  have run : (Pam.runPinutilTest [] pin).run.Runs Pam.any ()
      [⟨(), .pinutilTest [] (pin.str ++ ['\n']), .error [], ()⟩] _ () :=
    .call trivial (.ret _ _)
  exact delivered _ _ _ run _ List.mem_cons_self _ _ rfl

/-- A helper hands only the PIN of the first line to `verify_pin`. -/
theorem takes_first {text line : Str} {lines : List Str} {bytes : Bytes}
    (takes : HelperTakes policy text bytes) (first : readLines text = line :: lines) :
    ∃ read, Pin.new line policy = .ok read ∧ asBytes read.str = bytes := by
  obtain ⟨read, same, checks⟩ := takes
  let env : Env := ⟨0, 0, true, policy, fun _ => some 1000, fun _ => none⟩
  let acc : Account := ⟨.written plainPin.auth ⟨0, 3⟩, .version PIN_VERSION_CURRENT⟩
  let ops : KeyOps := fun _ keys => (.error .permissionDenied, keys)
  let input : Stdin := .piped text ⟨none, none, none⟩
  have run := Prog.runs_run
    ((Tpm.exec.within_faulty fun _ => False).sum (Stdin.handler ops).graph_within)
    (Util.testPin env []).run (Tpm.empty.put serves_thousand acc, input)
  have ends : (Util.testPin env []).run.run (process ops) (Tpm.empty.put serves_thousand acc, input) =
      _ := @testPin_refines ops env 1000 serves_thousand [] rfl rfl Tpm.empty acc input
  have typed : (Machine.testPin env 1000 acc input).2.2.console.typed = [line] := by
    have piped : input = ⟨.ok line :: lines.map .ok, .start ⟨none, none, none⟩⟩ := by
      simp only [input, Stdin.piped, first, List.map_cons]
    rw [piped]
    exact testPin_typed rfl rfl (by decide)
  rw [ends] at run
  have checked := checks ops (fun _ => False) env [] 1000 _ ⟨none, none, none⟩ _ _ _ rfl rfl rfl run
  obtain ⟨line', typed', made⟩ | none_ := checked.reads run
  · have only : [line'] = [line] := typed'.symm.trans typed
    rw [List.singleton_inj.1 only] at made
    exact ⟨read, made, same⟩
  · exact absurd (none_.symm.trans typed) (List.cons_ne_nil _ _).symm

theorem delivered_iff (made : Pin.new s policy = .ok pin) : Delivered policy pin ↔ '\n' ∉ trim s := by
  have text : pin.str = trim s := (Pin.new_eq_ok.1 made).2
  rw [← text]
  constructor
  · intro delivered inside
    obtain ⟨before, after, split, single⟩ := List.eq_append_cons_of_mem inside
    have first : readLines (pin.str ++ ['\n']) = (before ++ ['\n']) :: readLines (after ++ ['\n']) := by
      rw [split, List.append_assoc, List.cons_append]
      exact readLines_line single
    obtain ⟨read, entered, same⟩ := takes_first delivered.takes first
    -- the helper's PIN is what comes before the newline
    have shorter : read.str = trim before := (Pin.new_eq_ok.1 entered).2.trans trim_newline
    rw [asBytes_injective same] at shorter
    rw [shorter] at inside
    exact single (mem_trim inside)
  · intro single username events r run event member name text' writes
    obtain ⟨answer, rfl⟩ := test_writes run
    obtain rfl := List.mem_singleton.1 member
    cases writes
    refine ⟨pin, rfl, ?_⟩
    rintro ops P env username uid t keys events r z rfl machine resolved test
    have entered := (Pin.new_trim trim_newline).2 (Pin.new_str made)
    exact testPin_checks (readLines_line single) entered machine resolved test

theorem presents_of_quiet {bytes : Bytes} {ε α : Type} {x : Fallible NvCmd ε α}
    (quiet : OnlyX NvCmd.Quiet x) :
    OnlyX (fun c => ∀ a, c.presented = some a → a = .ofBytes bytes) x := by
  apply Prog.only_mono quiet
  intro c silent a presents
  cases c with
  | nvRead auth i size offset =>
    cases auth with
    | index a => exact silent.elim
    | owner => cases presents
    | policy session => cases presents
  | _ => cases presents

/-- A comparison presents the bytes, and nothing else. -/
theorem verifyPinExact_presents {uid : UInt32} {bytes : Bytes} :
    OnlyX (fun c => ∀ a, c.presented = some a → a = .ofBytes bytes) (verifyPinExact uid bytes) := by
  have free : ∀ {c : NvCmd}, c.presented = none →
      OnlyX (fun c => ∀ a, c.presented = some a → a = .ofBytes bytes) (tpm c) := by
    intro c none_
    refine onlyX_op fun a presents => ?_
    rw [none_] at presents
    cases presents
  unfold verifyPinExact executeWithNullauthSession
  refine onlyX_bind onlyX_ofResult fun i => onlyX_bind (onlyX_mapErr (free rfl)) fun _ => ?_
  refine onlyX_bind (onlyX_attempt (onlyX_bind (free rfl) fun _ => ?_)) fun data => ?_
  · refine onlyX_bind (onlyX_attempt ?_) fun r => onlyX_bind (free rfl) fun _ => onlyX_ofResult
    unfold Auth.tryFrom
    split
    · exact onlyX_op fun a presents => (Option.some.inj presents).symm
    · exact onlyX_throw
  · dsimp only
    split
    · exact onlyX_pure
    · exact onlyX_bind (onlyX_attempt (presents_of_quiet readPinSlotOwner_quiet)) fun _ => onlyX_pure
    · exact onlyX_bind (onlyX_attempt (presents_of_quiet readPinSlotOwner_quiet)) fun _ => onlyX_pure
    · exact onlyX_throw
    · exact onlyX_throw
    · exact onlyX_throw

/-- On a slot in the current format `verify_pin` presents the bytes of the PIN. -/
theorem verifyPin_presents {uid : UInt32} {serves : Serves uid} {P : Tpm → Prop} {m : PinManager}
    {slot : SlotState} {u : Stdin} {r : PinResult VerificationResult} {z : Tpm × Stdin}
    {events : List (Event UtilCmd (Tpm × Stdin))}
    (run : (manage (m.verifyPin uid pin)).run.Runs (frailInput ops P)
      (t.put serves ⟨slot, .version PIN_VERSION_CURRENT⟩, u) events r z) :
    ∀ event ∈ events, ∀ c a, event.op = .inl c → c.presented = some a → a = pin.auth := by
  unfold PinManager.verifyPin manage at run
  rw [inl_bind] at run
  have tagged : ∀ {events r z}, (manage (readPinVersionTag uid)).run.Runs (frailInput ops P)
      (t.put serves ⟨slot, .version PIN_VERSION_CURRENT⟩, u) events r z →
      (∀ version, r = .ok version → version = some PIN_VERSION_CURRENT) ∧
        ∀ event ∈ events, ∀ c a, event.op = .inl c → c.presented = some a → a = pin.auth := by
    intro events r z run
    have current : wpx (frailInput ops P) (fun _ => True) (manage (readPinVersionTag uid))
        (fun r _ => ∀ version, r = .ok version → version = some PIN_VERSION_CURRENT)
        (t.put serves ⟨slot, .version PIN_VERSION_CURRENT⟩, u) := by
      apply wpx_inl.2
      apply wpx_readPinVersionTag trivial
      · rintro version ⟨⟩
        rfl
      · exact fun _ f version ok => by cases ok
    refine ⟨run.post current, fun event member c a command presents => ?_⟩
    have waits := (runs_quiet readPinVersionTag_quiet run).2 event member
    rw [command] at waits
    rw [show c.presented = none from waits] at presents
    cases presents
  obtain ⟨e, rfl, left⟩ | ⟨read, version, _, rest, rfl, left, run⟩ := runs_of_bind run
  · exact (tagged left).2
  · obtain ⟨current, silent⟩ := tagged left
    obtain rfl := current version rfl
    dsimp only at run
    rw [if_neg (not_not.2 rfl)] at run
    refine List.forall_mem_append.2 ⟨silent, fun event member c a command presents => ?_⟩
    have exact : OnlyX (fun c : UtilCmd => ∀ c' a, c = .inl c' → c'.presented = some a → a = pin.auth)
        (manage (verifyPinExact uid (asBytes pin.str))) := by
      apply onlyX_inl
      apply Prog.only_mono verifyPinExact_presents
      rintro c only _ a ⟨⟩
      exact only a
    exact run.only exact event member c a command presents

/-- A PIN that was typed at a prompt of pinutil. -/
theorem typed_delivered {text line : Str} (typed : TypedAs text line)
    (made : Pin.new line policy = .ok pin) : Delivered policy pin :=
  (delivered_iff made).2 fun inside => typed.1 (mem_trim (typed.trim_eq ▸ inside))

section Prompt

variable {S : Type} {h : Handler PamCmd S} {x : S} {used limit : UInt32} {text : Str}
  (answers : ∀ prompt x, (h (.converse prompt) x).1 = .ok (.text text))
include answers

theorem promptHidden_answered {prompt : PamText} :
    exec h (Pam.promptHidden prompt) x = (.ok (trim text), (h (.converse prompt) x).2) := by
  unfold Pam.promptHidden
  rw [exec_op, answers]

/-- A text at the prompt of the module enters the PIN that the policy makes of it. -/
theorem prompt_enters (left : used < limit) (made : Pin.new text policy = .ok pin) :
    ∃ prompt, exec h (Pam.promptForPin policy used limit) x =
    (.ok pin, (h (.converse prompt) x).2) := by
  have below := UInt32.lt_iff_toNat_lt.1 left
  have difference := UInt32.toNat_sub_of_le _ _ (UInt32.le_iff_toNat_le.2 below.le)
  obtain ⟨prompt, shown⟩ := @promptText_some (limit - used) (by omega)
  refine ⟨prompt, ?_⟩
  unfold Pam.promptForPin
  rw [shown]
  dsimp only
  rw [exec_bind, promptHidden_answered answers]
  dsimp only
  rw [(Pin.new_trim (trim_trim text)).2 made]
  rfl

theorem prompt_refuses (refused : ∀ pin, Pin.new text policy ≠ .ok pin) :
    ∃ code, (exec h (Pam.promptForPin policy used limit) x).1 = .error code := by
  have stops : ∀ (message : PamM Unit) x, ∃ code, (exec h (do
      message
      throw .authErr : PamM Pin) x).1 = .error code := by
    intro message x
    rw [exec_bind]
    rcases exec h message x with ⟨code | _, x'⟩
    · exact ⟨code, rfl⟩
    · exact ⟨_, rfl⟩
  unfold Pam.promptForPin
  cases Pam.promptText (limit - used) with
  | none => exact ⟨_, rfl⟩
  | some prompt =>
    dsimp only
    rw [exec_bind, promptHidden_answered answers]
    dsimp only
    cases read : Pin.new (trim text) policy with
    | ok pin => exact absurd ((Pin.new_trim (trim_trim text)).1 read) (refused pin)
    | error e =>
      split
      · next ok => cases ok
      · exact stops _ _
      · exact stops _ _

end Prompt

/-- What a setup of pinutil that went well has read and stored. -/
theorem setupPin_stores {uid : UInt32} {serves : Serves uid} {username line : Str}
    {rest : List (Except Str Str)} {u : Console} {acc : Account} {t' : Tpm} {s' : Stdin}
    (resolved : env.uidOf username = some uid)
    (done : exec (process ops) (Util.setupPin env username) (t.put serves acc, ⟨.ok line :: rest, u⟩) =
      (.ok (), t', s')) :
    ∃ pin, Pin.new line env.policy = .ok pin ∧
      t'.Shows serves ⟨.written pin.auth ⟨0, env.policy.maxAttempts⟩,
        .version PIN_VERSION_CURRENT⟩ := by
  have found : env.getUidFromUsername username = .ok uid := by rw [Env.getUidFromUsername, resolved]
  unfold Util.setupPin at done
  rw [found, ofResult_ok_bind] at done
  split at done
  · cases done
  rw [exec_bind, exec_newManager] at done
  dsimp only at done
  rw [exec_bind, exec_attempt, exec_getAttemptCount] at done
  dsimp only at done
  cases unset : acc.slot.data with
  | some data =>
    rw [unset] at done
    cases done
  | none =>
    rw [unset] at done
    dsimp only [Option.map_none] at done
    rw [exec_bind, exec_confirmed] at done
    cases entered : (Stdin.confirmedPin env ⟨.ok line :: rest, u⟩).1 with
    | error e =>
      rw [entered] at done
      cases done
    | ok pin =>
      rw [entered] at done
      dsimp only at done
      rw [exec_bind, exec_manage, exec_setupPin, manager_limit] at done
      have made : Pin.new line env.policy = .ok pin := Stdin.confirmedPin_first entered
      cases refused : Account.refusal (asBytes pin.str) acc.slot with
      | some err =>
        simp only [Account.setupPin, unset, refused, Option.isSome_none,
          Bool.false_eq_true, if_false] at done
        cases done
      | none =>
        simp only [setupPin_stored unset refused, exec_human] at done
        cases done
        exact ⟨pin, made, Tpm.put_shows⟩

end Pipe

/-- Without faults or with them, a test presents the value of the PIN that is stored. -/
theorem testPin_presents {ops : KeyOps} {P : Tpm → Prop} {env : Env} {pin : Pin} {username : Str}
    {uid : UInt32} {serves : Serves uid} {t : Tpm} {keys : KeyStore} {slot : SlotState}
    {events : List (Event UtilCmd (Tpm × Stdin))} {r : PinResult Unit} {z : Tpm × Stdin}
    (takes : HelperTakes env.policy (pin.str ++ ['\n']) (asBytes pin.str))
    (machine : env.machine = true) (resolved : env.uidOf username = some uid)
    (run : (Util.testPin env username).run.Runs (frailInput ops P)
      (t.put serves ⟨slot, .version PIN_VERSION_CURRENT⟩, .piped (pin.str ++ ['\n']) keys) events r z) :
    ∀ event ∈ events, ∀ c a, event.op = .inl c → c.presented = some a → a = pin.auth := by
  obtain ⟨read, same, checks⟩ := takes
  cases checks ops P env username uid _ keys events r z rfl machine resolved run with
  | verified _ _ silent verify =>
    refine List.forall_mem_append.2 ⟨fun event member c a command presents => ?_, ?_⟩
    · rw [silent event member c command] at presents
      cases presents
    · have value : read.auth = pin.auth := congrArg Auth.ofBytes same
      rw [← value]
      exact verifyPin_presents verify
  | refused waits =>
    intro event member c a command presents
    have waits := waits event member
    rw [command] at waits
    rw [show c.presented = none from waits] at presents
    cases presents

/-- A PIN that the module makes of a text arrives at `verify_pin` in the helper exactly where it has
no newline inside; one that was typed at a setup always does, and what is presented to the TPM is
what was stored. -/
theorem entered_pin_delivered_iff {s : Str} {policy : PinPolicy} :
    (∀ pin, Pin.new s policy = .ok pin → (Delivered policy pin ↔ '\n' ∉ trim s)) ∧
    ∀ (ops : KeyOps) (env : Env) (username : Str) (uid : UInt32) (serves : Serves uid) (t : Tpm)
      (acc : Account) (text line : Str) (rest : List (Except Str Str)) (u : Console) (t' : Tpm)
      (s' : Stdin), env.uidOf username = some uid →
        TypedAs text line →
        exec (process ops) (Util.setupPin env username)
          (t.put serves acc, ⟨.ok line :: rest, u⟩) = (.ok (), t', s') →
          ∃ pin : Pin, t'.Shows serves
            ⟨.written (.ofBytes (asBytes pin.str)) ⟨0, env.policy.maxAttempts⟩,
              .version PIN_VERSION_CURRENT⟩ ∧
            Delivered env.policy pin ∧
            (∀ (S : Type) (h : Handler PamCmd S) (x : S) (used limit : UInt32),
              (∀ prompt x, (h (.converse prompt) x).1 = .ok (.text text)) → used < limit →
                (exec h (Pam.promptForPin env.policy used limit) x).1 = .ok pin) ∧
            ∀ (ops : KeyOps) (P : Tpm → Prop) (helper : Env) (name : Str) (keys : KeyStore)
              (events : List (Event UtilCmd (Tpm × Stdin))) (r : PinResult Unit) (z : Tpm × Stdin),
              helper.policy = env.policy → helper.machine = true → helper.uidOf name = some uid →
                (Util.testPin helper name).run.Runs (frailInput ops P)
                    (t', .piped (pin.str ++ ['\n']) keys) events r z →
                  ∀ event ∈ events, ∀ c a, event.op = .inl c → c.presented = some a →
                    a = .ofBytes (asBytes pin.str) := by
  refine ⟨fun pin made => delivered_iff made, ?_⟩
  intro ops env username uid serves t acc text line rest u t' s' resolved typed done
  obtain ⟨pin, made, stored⟩ := setupPin_stores resolved done
  have delivered := typed_delivered typed made
  refine ⟨pin, stored, delivered, ?_, ?_⟩
  · intro S h x used limit answers left
    obtain ⟨prompt, entered⟩ :=
      prompt_enters (x := x) answers left ((Pin.new_trim typed.trim_eq).1 made)
    rw [entered]
  · intro ops P helper name keys events r z policy machine resolved run
    have takes := delivered.takes
    rw [← policy] at takes
    rw [← stored.eq_put] at run
    exact testPin_presents takes machine resolved run

/-- A user who types 4242 at a setup, and later at the prompt of the module. -/
theorem entered_pin_delivered_once : Delivered .default plainPin ∧ ∃ pin : Pin,
    (exec (process idleKeys) (Util.setupPin sampleEnv "alice".toList)
      (Tpm.empty, ⟨[.ok " 4242\n".toList], .start ⟨none, none, none⟩⟩)).2.1.Shows serves_thousand
      ⟨.written (.ofBytes (asBytes pin.str)) ⟨0, 3⟩, .version PIN_VERSION_CURRENT⟩ ∧
    Delivered .default pin := by
  have made : Pin.new " 4242".toList .default = .ok plainPin := by decide +kernel
  have typed : TypedAs " 4242".toList " 4242\n".toList := ⟨by decide, .inr rfl⟩
  have bare : Tpm.empty.put serves_thousand ⟨.absent, .absent⟩ = Tpm.empty :=
    Tpm.Shows.eq_put ⟨rfl, rfl⟩
  obtain ⟨arrives, stored⟩ :=
    @entered_pin_delivered_iff " 4242".toList .default
  refine ⟨(arrives plainPin made).2 (by decide), ?_⟩
  obtain ⟨pin, shows_, delivered, -⟩ := stored idleKeys sampleEnv "alice".toList 1000 serves_thousand
    Tpm.empty ⟨.absent, .absent⟩ _ _ [] _ _ _ rfl typed (by rw [bare]; rfl)
  exact ⟨pin, shows_, delivered⟩

/-- A token with a newline inside: the helper reads `1234`. -/
theorem stacked_pin_cut : ¬ ∀ (s : Str) (policy : PinPolicy) (pin : Pin),
    '\x00' ∉ s → Pin.new s policy = .ok pin →
    Delivered policy pin := by
  intro claim
  let pin : Pin := ⟨"1234\n567".toList, by decide +kernel, by decide⟩
  have made : Pin.new "1234\n567".toList .default = .ok pin :=
    Pin.new_eq_ok.2 ⟨by decide +kernel, by decide +kernel⟩
  have single := (delivered_iff made).1 (claim _ _ pin (by decide +kernel) made)
  exact absurd single (by decide +kernel)

end Pinpam
