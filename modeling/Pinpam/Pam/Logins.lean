import Pinpam.Core.Credential
import Pinpam.Pam.Attempts
import Pinpam.Pam.Entries

/-!
# Logins one after the other

The module, the helper that it starts twice and the TPM under both, as one gate: a login
presents the PINs that it comes by, and its return code and the slot that it leaves are
those of the gate.
-/

namespace Pinpam
set_option autoImplicit false
open Pinpam.Effect Pinpam.Effect.Fallible

/-- A login: the arguments of the module, the token of an earlier one, and what is answered
to the prompt. The helper runs in `env`, and the module has its policy. -/
structure Login where
  env : Env
  args : ModuleArgs
  authtok : Option Str
  typed : Str

namespace Login

/-- The PINs that a login presents, if it gets to. -/
def presents (login : Login) : List Pin :=
  let entered := (Pin.new login.typed login.env.policy).toOption.toList
  match decideFirstPass login.args login.authtok login.env.policy with
  | .deny => []
  | .tryFirstPass pin => if login.args.useFirstPass then [pin] else pin :: entered
  | .promptUser => entered

def run (ops : KeyOps) (keys : KeyStore) (username : Str) (login : Login) (t : Tpm) :
    PamReturnCode × Tpm :=
  let out := exec (Pam.onHost ops login.env keys login.typed)
    (Pam.authenticateUser login.env.policy username login.args login.env.uidOf login.authtok) t
  (returnCode out.1, out.2)

/-- Logins one after the other. -/
def runs (ops : KeyOps) (keys : KeyStore) (username : Str) : List Login → Tpm →
    List PamReturnCode × Tpm
  | [], t => ([], t)
  | login :: rest, t =>
    let out := login.run ops keys username t
    (out.1 :: (runs ops keys username rest out.2).1, (runs ops keys username rest out.2).2)

/-- The helper is started on a pipe and may test the PIN of the user; the PINs reach it as
they are. -/
structure Sound (login : Login) (username : Str) (uid : UInt32) : Prop where
  machine : login.env.machine = true
  may : login.env.canAttemptPin uid = true
  resolved : login.env.uidOf username = some uid
  short : ∀ pin ∈ login.presents, (asBytes pin.str).length ≤ authMaxSize
  single : ∀ pin ∈ login.presents, '\n' ∉ pin.str

end Login

/-- The return code at the gate. -/
def entranceCode : Entrance → PamReturnCode
  | .opened => .success
  | .rejected => .authErr
  | .shut => .maxtries

section Logins

variable {ops : KeyOps} {env : Env} {keys : KeyStore} {uid : UInt32} {serves : Serves uid}
  {username typed : Str} {t : Tpm} {a : Auth} {c : PinCounters} {pin : Pin} {login : Login}

/-- An account in the current format. -/
abbrev versioned (a : Auth) (c : PinCounters) : Account :=
  ⟨.written a c, .version PIN_VERSION_CURRENT⟩

/-- The outcome of a test at the gate. -/
def testOutcome (a : Auth) (c : PinCounters) (pin : Pin) : PinutilTestOutcome :=
  if pin.auth = a then .success
  else if (c.after false).locked then .newlyLockedOut else .invalidPin

/-- A test by the helper on a slot that is not locked. -/
theorem exec_runPinutilTest (machine : env.machine = true) (may : env.canAttemptPin uid = true)
    (resolved : env.uidOf username = some uid) (unlocked : ¬ c.locked)
    (low : c.pinLimit.toNat < 2 ^ 31) (valid : env.policy.validate pin.str = .ok ())
    (short : (asBytes pin.str).length ≤ authMaxSize) (single : '\n' ∉ pin.str) :
    exec (Pam.onHost ops env keys typed) (Pam.runPinutilTest username pin)
      (t.put serves (versioned a c)) =
      (.ok (.ok (testOutcome a c pin)),
        t.put serves (versioned a (c.after (decide (pin.auth = a))))) := by
  have made : Pin.new (pin.str ++ ['\n']) env.policy = .ok pin := by
    apply (Pin.new_trim trim_newline).2
    exact Pin.new_eq_ok.2 ⟨pin.normalized.symm ▸ valid, pin.normalized.symm⟩
  have prompt := @piped_promptPin env keys pin single
  rw [made] at prompt
  have tested : ∃ s, Machine.testPin env uid (versioned a c) (.piped (pin.str ++ ['\n']) keys) =
      (if pin.auth = a then .ok () else .error (.incorrectPin (decide (c.after false).locked)),
        versioned a (c.after (decide (pin.auth = a))), s) := by
    unfold Machine.testPin
    rw [if_neg (not_not.2 may)]
    dsimp only [SlotState.data, Option.map]
    rw [info_unlocked unlocked]
    simp only [Bool.false_eq_true, if_false]
    rcases entered : Stdin.promptPin env.policy (.piped (pin.str ++ ['\n']) keys) with ⟨r, s⟩
    rw [entered] at prompt
    dsimp only at prompt
    subst prompt
    dsimp only
    rw [verifyPin_current rfl]
    by_cases hit : pin.auth = a
    · subst hit
      rw [SlotState.Opens.exact ⟨rfl, unlocked, low⟩ short, if_pos rfl, decide_eq_true rfl]
      exact ⟨s, rfl⟩
    · have wrong : ¬ ∃ c', (versioned a c).Accepts pin c' := by
        rintro ⟨c', ⟨-, opens, -⟩ | ⟨legacy, -, -⟩⟩
        · exact hit (slot_unique rfl opens.written).1
        · cases legacy
      have sound : (versioned a c).Sound := by
        refine ⟨.inr rfl, ?_⟩
        rintro _ _ ⟨⟩
        exact low
      have missed := @verifyPin_miss uid env.policy.maxAttempts _ pin a c sound rfl unlocked wrong
        (reads_short short)
      rw [verifyPin_current rfl] at missed
      rw [missed, if_neg hit, decide_eq_false hit]
      exact ⟨s, rfl⟩
  obtain ⟨s, tested⟩ := tested
  rw [runPinutilTest_report machine resolved, tested]
  unfold testOutcome
  by_cases hit : pin.auth = a
  · simp only [if_pos hit]
    rfl
  · simp only [if_neg hit]
    by_cases reached : (c.after false).locked
    · rw [if_pos reached, decide_eq_true reached]
      rfl
    · rw [if_neg reached, decide_eq_false reached]
      rfl

/-! ## At the gate -/

/-- The module counts the miss as the slot does. -/
theorem saturatingAdd_one (unlocked : ¬ c.locked) :
    Pam.saturatingAdd c.pinCount 1 = (c.after false).pinCount := by
  have below := UInt32.lt_iff_toNat_lt.1 (UInt32.not_le.1 unlocked)
  have bound := c.pinLimit.toNat_lt
  unfold Pam.saturatingAdd checkedAdd
  rw [UInt32.toNat_one, if_pos (by omega)]
  rfl

/-- The PINs as tries: which of them the slot holds. -/
def tries (a : Auth) (pins : List Pin) : List Bool := pins.map fun pin => decide (pin.auth = a)

/-- What was returned and left is what the gate makes of the tries. -/
def Passes (serves : Serves uid) (t : Tpm) (a : Auth) (c : PinCounters) (pins : List Pin)
    (out : PamReturnCode × Tpm) : Prop :=
  ∃ c', out = (entranceCode (Gate.enter (tries a pins) c.gate).1, t.put serves (versioned a c')) ∧
    c'.gate = (Gate.enter (tries a pins) c.gate).2

/-- The PIN of the slot. -/
theorem passes_hit {pins : List Pin} (unlocked : ¬ c.locked) (hit : pin.auth = a) :
    Passes serves t a c (pin :: pins)
      (.success, t.put serves (versioned a (c.after true))) := by
  have next : Gate.enter (tries a (pin :: pins)) c.gate = (.opened, { c.gate with used := 0 }) := by
    simp only [tries, List.map_cons, decide_eq_true hit, Gate.enter_hit (gate_open.1 unlocked)]
  rw [Passes, next]
  exact ⟨_, rfl, after_true_gate⟩

/-- Nothing is presented. -/
theorem passes_nothing (unlocked : ¬ c.locked) :
    Passes serves t a c [] (.authErr, t.put serves (versioned a c)) := by
  refine ⟨c, ?_, rfl⟩
  simp only [tries, List.map_nil, Gate.enter, if_neg (Nat.not_le.2 (gate_open.1 unlocked))]
  rfl

/-- Whatever is presented, the gate is shut. -/
theorem passes_shut {pins : List Pin} (locked : c.locked) :
    Passes serves t a c pins (.maxtries, t.put serves (versioned a c)) := by
  have shut : c.gate.limit ≤ c.gate.used := UInt32.le_iff_toNat_le.1 locked
  rw [Passes, Gate.enter_shut shut]
  exact ⟨c, rfl, rfl⟩

/-- Another PIN is a miss, and then come the others. -/
theorem Passes.after_miss {pins : List Pin} {out : PamReturnCode × Tpm} (unlocked : ¬ c.locked)
    (miss : pin.auth ≠ a) (rest : Passes serves t a (c.after false) pins out) :
    Passes serves t a c (pin :: pins) out := by
  obtain ⟨c', same, gate⟩ := rest
  have next : Gate.enter (tries a (pin :: pins)) c.gate =
      Gate.enter (tries a pins) (c.after false).gate := by
    rw [after_false_gate unlocked]
    simp only [tries, List.map_cons, decide_eq_false miss, Gate.enter_miss (gate_open.1 unlocked)]
  exact ⟨c', next ▸ same, next ▸ gate⟩

/-- A single PIN. -/
theorem passes_single (unlocked : ¬ c.locked) :
    Passes serves t a c [pin] ((testOutcome a c pin).code,
      t.put serves (versioned a (c.after (decide (pin.auth = a))))) := by
  unfold testOutcome
  by_cases hit : pin.auth = a
  · rw [if_pos hit, decide_eq_true hit]
    exact passes_hit unlocked hit
  rw [if_neg hit, decide_eq_false hit]
  by_cases reached : (c.after false).locked
  · rw [if_pos reached]
    exact .after_miss unlocked hit (passes_shut reached)
  · rw [if_neg reached]
    exact .after_miss unlocked hit (passes_nothing reached)

/-! ## The phases -/

section Phases

variable {args : ModuleArgs} {authtok : Option Str} {used limit : UInt32}
  {outcome : PinutilTestOutcome}
  (machine : env.machine = true) (may : env.canAttemptPin uid = true)
  (resolved : env.uidOf username = some uid) (unlocked : ¬ c.locked)
  (low : c.pinLimit.toNat < 2 ^ 31)

theorem exec_finalize :
    exec (Pam.onHost ops env keys typed) (Pam.finalizeOutcome outcome) t = (.ok outcome.code, t) := by
  cases outcome <;> rfl

/-- The prompt takes what is typed through the gate of the policy. -/
theorem exec_promptForPin {policy : PinPolicy} (left : used < limit) :
    exec (Pam.onHost ops env keys typed) (Pam.promptForPin policy used limit) t =
    ((Pin.new typed policy).mapError fun _ => .authErr, t) := by
  have positive : 0 < (limit - used).toNat := by
    have below := UInt32.lt_iff_toNat_lt.1 left
    rw [UInt32.toNat_sub_of_le _ _ (UInt32.le_iff_toNat_le.2 below.le)]
    omega
  obtain ⟨prompt, shown⟩ := promptText_some positive
  have answered : exec (Pam.onHost ops env keys typed) (Pam.promptHidden prompt) t =
      (.ok (trim typed), t) := rfl
  unfold Pam.promptForPin
  rw [shown]
  dsimp only
  rw [exec_bind, answered]
  dsimp only
  cases made : Pin.new typed policy with
  | ok pin =>
    rw [(Pin.new_trim (trim_trim typed)).2 made]
    rfl
  | error e =>
    have refused : ∃ e, Pin.new (trim typed) policy = .error e := by
      cases again : Pin.new (trim typed) policy with
      | error e => exact ⟨e, rfl⟩
      | ok pin => cases made.symm.trans ((Pin.new_trim (trim_trim typed)).1 again)
    obtain ⟨e', refused⟩ := refused
    rw [refused]
    split
    next same => cases same
    · rfl
    · rfl

include machine may resolved unlocked low

/-- What is typed at the prompt is presented, if the policy takes it. -/
theorem secondPhase_passes (left : used < limit)
    (short : ∀ pin, Pin.new typed env.policy = .ok pin → (asBytes pin.str).length ≤ authMaxSize)
    (single : ∀ pin, Pin.new typed env.policy = .ok pin → '\n' ∉ pin.str) :
    Passes serves t a c (Pin.new typed env.policy).toOption.toList
      (returnCode (exec (Pam.onHost ops env keys typed)
        (Pam.secondPhase env.policy username used limit) (t.put serves (versioned a c))).1,
      (exec (Pam.onHost ops env keys typed) (Pam.secondPhase env.policy username used limit)
        (t.put serves (versioned a c))).2) := by
  unfold Pam.secondPhase
  rw [if_neg (UInt32.not_le.2 left), exec_bind, exec_promptForPin left]
  cases made : Pin.new typed env.policy with
  | error e => exact passes_nothing unlocked
  | ok pin =>
    have valid := (Pin.new_eq_ok.1 (Pin.new_str made)).1
    rw [pin.normalized] at valid
    dsimp only [Except.mapError]
    rw [exec_bind, exec_runPinutilTest machine may resolved unlocked low valid (short pin made)
      (single pin made)]
    dsimp only
    rw [exec_finalize]
    exact passes_single unlocked

/-- The first phase at a gate that is open. -/
theorem firstPhase_passes (same : used = c.pinCount) (limit_ : limit = c.pinLimit)
    (sound : Login.Sound ⟨env, args, authtok, typed⟩ username uid) :
    Passes serves t a c (Login.presents ⟨env, args, authtok, typed⟩)
      (returnCode (exec (Pam.onHost ops env keys typed)
        (Pam.firstPhase env.policy username args authtok used limit)
        (t.put serves (versioned a c))).1,
      (exec (Pam.onHost ops env keys typed)
        (Pam.firstPhase env.policy username args authtok used limit)
        (t.put serves (versioned a c))).2) := by
  subst same limit_
  obtain ⟨-, -, -, short, single⟩ := sound
  unfold Pam.firstPhase
  unfold Login.presents at short single ⊢
  dsimp only at short single ⊢
  cases decision : decideFirstPass args authtok env.policy with
  | deny =>
    have told : exec (Pam.onHost ops env keys typed) (do
        Pam.show_ (Pam.error .authFailure)
        pure PamReturnCode.authErr : PamM PamReturnCode) (t.put serves (versioned a c)) =
        (.ok .authErr, t.put serves (versioned a c)) := rfl
    dsimp only
    rw [told]
    exact passes_nothing unlocked
  | promptUser =>
    rw [decision] at short single
    have entered : ∀ pin, Pin.new typed env.policy = .ok pin →
        pin ∈ (Pin.new typed env.policy).toOption.toList := by
      intro pin made
      simp [made, Except.toOption]
    exact secondPhase_passes machine may resolved unlocked low (UInt32.not_le.1 unlocked)
      (fun pin made => short pin (entered pin made)) fun pin made => single pin (entered pin made)
  | tryFirstPass pin =>
    rw [decision] at short single
    dsimp only at short single
    have listed : pin ∈ (if args.useFirstPass = true then [pin]
        else pin :: (Pin.new typed env.policy).toOption.toList) := by
      split <;> exact List.mem_cons_self
    have from_ := @decideFirstPass_cases env.policy args authtok
    rw [decision] at from_
    obtain ⟨-, token, -, made⟩ := from_
    have valid := (Pin.new_eq_ok.1 (Pin.new_str made)).1
    rw [pin.normalized] at valid
    dsimp only
    rw [exec_bind, exec_runPinutilTest machine may resolved unlocked low valid (short pin listed)
      (single pin listed)]
    dsimp only
    unfold testOutcome
    by_cases hit : pin.auth = a
    · rw [if_pos hit, decide_eq_true hit]
      split
      · exact passes_hit unlocked hit
      · exact passes_hit unlocked hit
    rw [if_neg hit, decide_eq_false hit]
    by_cases reached : (c.after false).locked
    · rw [if_pos reached]
      dsimp only
      rw [ite_self, exec_finalize]
      split <;> exact Passes.after_miss unlocked hit (passes_shut reached)
    · rw [if_neg reached]
      dsimp only
      by_cases only_ : args.useFirstPass = true
      · simp only [only_, if_true, exec_finalize]
        exact Passes.after_miss unlocked hit (passes_nothing reached)
      · rw [if_neg only_] at short single
        simp only [only_, Bool.false_eq_true, if_false]
        have later : ∀ pin', Pin.new typed env.policy = .ok pin' →
            pin' ∈ pin :: (Pin.new typed env.policy).toOption.toList := by
          intro pin' made
          simp [made, Except.toOption]
        have left : Pam.saturatingAdd c.pinCount 1 < c.pinLimit := by
          rw [saturatingAdd_one unlocked]
          exact UInt32.not_le.1 reached
        exact Passes.after_miss unlocked hit (secondPhase_passes machine may resolved reached low left
          (fun pin' made => short pin' (later pin' made)) fun pin' made => single pin' (later pin' made))

end Phases

/-- A login by a user that the slot belongs to. -/
theorem run_passes (count : c.pinCount ≤ c.pinLimit) (positive : 0 < c.pinLimit.toNat)
    (low : c.pinLimit.toNat < 2 ^ 31) (sound : login.Sound username uid) :
    Passes serves t a c login.presents
      (login.run ops keys username (t.put serves (versioned a c))) := by
  obtain ⟨env, args, authtok, typed⟩ := login
  have countLe := UInt32.le_iff_toNat_le.1 count
  have machine := sound.machine
  have may := sound.may
  have resolved := sound.resolved
  dsimp only at machine may resolved
  have status := @status_of_slot uid serves t a (.version PIN_VERSION_CURRENT) c ops env username
    keys machine resolved
  have info := @info_locked c (by omega) positive low
  have asked : exec (Pam.onHost ops env keys typed) (Pam.runPinutilStatus username)
      (t.put serves (versioned a c)) =
      (.ok (if c.locked then .lockedOut else .available c.pinCount c.pinLimit),
        t.put serves (versioned a c)) := by
    have answered : exec (Pam.onHost ops env keys typed) (Pam.runPinutilStatus username)
        (t.put serves (versioned a c)) =
        (.ok (pinutilStatus (.ok (statusOutput ops env username
          (t.put serves (versioned a c)) keys))), t.put serves (versioned a c)) := rfl
    rw [answered, status]
    unfold PinStatus.ofReport
    dsimp only
    rw [info, fromPinData_low (by omega) low]
    simp only [decide_eq_true_eq]
  unfold Login.run Pam.authenticateUser
  dsimp only
  rw [resolved]
  dsimp only
  rw [exec_bind, asked]
  dsimp only
  by_cases locked : c.locked
  · rw [if_pos locked]
    exact passes_shut locked
  · rw [if_neg locked]
    exact firstPhase_passes machine may resolved locked low rfl rfl sound

/-! ## The logins -/

/-- Logins to an account are entries at the gate of its counters: the return codes are what
the gate says to the PINs presented, and the counters are left as the gate is. -/
theorem logins_refine {logins : List Login} (count : c.pinCount ≤ c.pinLimit)
    (positive : 0 < c.pinLimit.toNat) (low : c.pinLimit.toNat < 2 ^ 31)
    (sound : ∀ login ∈ logins, login.Sound username uid) :
    ∃ c', Login.runs ops keys username logins (t.put serves (versioned a c)) =
      ((Gate.entries (logins.map fun login => tries a login.presents) c.gate).1.map entranceCode,
        t.put serves (versioned a c')) ∧
      c'.gate = (Gate.entries (logins.map fun login => tries a login.presents) c.gate).2 := by
  induction logins generalizing c with
  | nil => exact ⟨c, rfl, rfl⟩
  | cons login rest ih =>
    obtain ⟨first, others⟩ := List.forall_mem_cons.1 sound
    have ran : Passes serves t a c login.presents
        (login.run ops keys username (t.put serves (versioned a c))) :=
      run_passes count positive low first
    obtain ⟨c₁, ran, left⟩ := ran
    have limit : c₁.pinLimit.toNat = c.pinLimit.toNat := by
      have kept := congrArg Gate.limit left
      rwa [Gate.enter_limit] at kept
    have count₁ : c₁.pinCount ≤ c₁.pinLimit := by
      have bound : (Gate.enter (tries a login.presents) c.gate).2.used ≤
          (Gate.enter (tries a login.presents) c.gate).2.limit :=
        Gate.enter_used (UInt32.le_iff_toNat_le.1 count)
      rw [← left] at bound
      exact UInt32.le_iff_toNat_le.2 bound
    obtain ⟨c', later, gate⟩ := ih count₁ (limit ▸ positive) (limit ▸ low) others
    refine ⟨c', ?_, ?_⟩
    · simp only [Login.runs, ran, later, List.map_cons, Gate.entries, left]
    · simp only [gate, List.map_cons, Gate.entries, left]

end Logins

/-! ## Samples -/

/-- A login with a token, and what is then typed. -/
def sampleLogin (token typed : String) : Login where
  env := sampleEnv
  args := ⟨true, false⟩
  authtok := some token.toList
  typed := typed.toList

theorem sampleLogin_wrong : (sampleLogin "1111" "2222").Sound "alice".toList 1000 where
  machine := rfl
  may := rfl
  resolved := rfl
  short := by decide +kernel
  single := by decide +kernel

theorem logins_refine_once :
    ∃ c', Login.runs idleKeys ⟨none, none, none⟩ "alice".toList [sampleLogin "1111" "2222"]
        (Tpm.empty.put serves_thousand (versioned plainPin.auth ⟨0, 3⟩)) =
      ((Gate.entries ([sampleLogin "1111" "2222"].map fun login =>
          tries plainPin.auth login.presents) (⟨0, 3⟩ : PinCounters).gate).1.map entranceCode,
        Tpm.empty.put serves_thousand (versioned plainPin.auth c')) ∧
      c'.gate = (Gate.entries ([sampleLogin "1111" "2222"].map fun login =>
        tries plainPin.auth login.presents) (⟨0, 3⟩ : PinCounters).gate).2 :=
  logins_refine (by decide) (by decide) (by decide)
    (List.forall_mem_singleton.2 sampleLogin_wrong)

end Pinpam
