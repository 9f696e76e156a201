import Pinpam.Util.Invocations

/-!
# What a user may do

A user who is not root runs pinutil, any number of times, on a TPM that may fail any
command, and any run may be killed. Each run only touches the account it names: it may try
a PIN on it where the effective uid allows, and beyond that needs a PIN that the slot
accepts, or no slot of the user's own.
-/

namespace Pinpam
set_option autoImplicit false
open Pinpam.Effect Pinpam.Effect.Fallible

/-- The value and the limit of a slot. -/
def NvIndex.secret (x : NvIndex) : Auth × Option UInt32 :=
  match x.area with
  | .pinFail (some c) => (x.authValue, some c.pinLimit)
  | _ => (x.authValue, none)

def Tpm.secret {uid : UInt32} (t : Tpm) (serves : Serves uid) : Option (Auth × Option UInt32) :=
  (t.nv (slotHandle uid serves)).map NvIndex.secret

/-- A line that was read gives a PIN that the slot of the user accepted. -/
def Invocation.Entered {uid : UInt32} (x : Invocation) (serves : Serves uid) : Prop :=
  ∃ line ∈ x.typed, ∃ pin acc c, Pin.new line x.env.policy = .ok pin ∧
  x.before.1.Shows serves acc ∧ acc.Accepts pin c

/-- What the run of a user leaves of the accounts and of the master key. -/
structure Separated (x : Invocation) : Prop where
  keys : x.after.2 = x.before.2
  /-- the value, the limit and the existence of the slot of another user -/
  others : ∀ uid (serves : Serves uid), uid ≠ x.env.uid →
    x.after.1.secret serves ≠ x.before.1.secret serves → x.Entered serves
  /-- nothing at all of another user, without an effective uid of root -/
  untouched : x.env.euid ≠ 0 → ∀ uid (serves : Serves uid), uid ≠ x.env.uid →
    x.after.1.nv (slotHandle uid serves) = x.before.1.nv (slotHandle uid serves) ∧
      x.after.1.nv (tagHandle uid serves) = x.before.1.nv (tagHandle uid serves)
  /-- the slot of the user, where there is one -/
  own : ∀ serves : Serves x.env.uid, x.before.1.secret serves ≠ none →
    x.after.1.secret serves ≠ x.before.1.secret serves → x.Entered serves

/-- What a user may make of an account. -/
inductive Account.Granted (env : Env) (uid : UInt32) (acc : Account) (typed : List Str) :
    Account → Prop where
  | same : Granted env uid acc typed acc
  | tried {a : Account} (attempts : env.canAttemptPin uid = true)
      (secret : a.slot.index.map NvIndex.secret = acc.slot.index.map NvIndex.secret) :
      Granted env uid acc typed a
  | fresh {a : Account} (own : env.uid = uid) (absent : acc.slot = .absent) :
      Granted env uid acc typed a
  | proven {a : Account} (attempts : env.canAttemptPin uid = true) {line : Str}
      (entered : line ∈ typed) {pin : Pin} {c : PinCounters}
      (made : Pin.new line env.policy = .ok pin) (accepts : acc.Accepts pin c) :
      Granted env uid acc typed a

section Privileges

variable {env : Env} {uid limit : UInt32} {serves : Serves uid} {t : Tpm} {acc a : Account}
  {u : Console} {keys : KeyStore} {pin : Pin} {username : Option Str} {m : PinManager}
  {C P : Tpm → Prop}

theorem compared_secret {slot : SlotState} {b : Auth} :
    (slot.compared b).index.map NvIndex.secret = slot.index.map NvIndex.secret := by
  cases slot with
  | absent => rfl
  | unwritten => rfl
  | written b' c =>
    unfold SlotState.compared
    dsimp only
    split <;> rfl

/-- A verification only compares, unless the account accepts the PIN. -/
theorem Account.Verifies.secret (verifies : acc.Verifies uid pin limit a) :
    a.slot.index.map NvIndex.secret = acc.slot.index.map NvIndex.secret ∨ ∃ c, acc.Accepts pin c := by
  cases verifies with
  | start => exact .inl rfl
  | compared => exact .inl compared_secret
  | comparedLegacy => exact .inl compared_secret
  | migrates legacy hit =>
    obtain ⟨short, c, slot, unlocked, low, -⟩ := exact_success hit
    exact .inr ⟨c, .legacy legacy ⟨slot, unlocked, low⟩ short⟩

/-- A PIN that the account does not accept is not reported as right, whatever fails. -/
theorem wpx_verifyPin_unaccepted (wrong : ¬ ∃ c, acc.Accepts pin c)
    (crash : ∀ a, acc.Verifies uid pin m.policy.maxAttempts a → C (t.put serves a)) :
    wpx (Faulty Tpm.exec P) C (m.verifyPin uid pin) (fun r _ => ∀ data, r ≠ .ok (.success data))
      (t.put serves acc) := by
  have misses : ∀ data, acc.tag.read = none →
      (acc.verifyPinExact uid (asBytes (normalizeLegacyPin pin.str))).1 ≠ .ok (.success data) := by
    intro data legacy hit
    obtain ⟨short, c, slot, unlocked, low, -⟩ := exact_success hit
    exact wrong ⟨c, .legacy legacy ⟨slot, unlocked, low⟩ short⟩
  apply wpx_verifyPin crash
  · intro data success
    obtain ⟨c, accepts, -⟩ := verifyPin_success_iff.1 success
    exact wrong ⟨c, accepts⟩
  · simp
  · exact fun slot _ _ legacy hit => absurd hit (misses slot legacy)
  · simp

/-- Nothing is deleted with such a PIN. -/
theorem wpx_deletePinWithAuth_unaccepted (wrong : ¬ ∃ c, acc.Accepts pin c)
    (crash : ∀ a, acc.Verifies uid pin m.policy.maxAttempts a → C (t.put serves a)) :
    wpx (Faulty Tpm.exec P) C (m.deletePinWithAuth uid pin) (fun _ _ => True) (t.put serves acc) := by
  unfold PinManager.deletePinWithAuth
  apply wpx_bind.2 (wpx_mono (wpx_verifyPin_unaccepted wrong crash) _)
  rintro (e | (data | locked | _)) t' crash' fails
  · exact ⟨crash', trivial⟩
  · exact absurd rfl (fails data)
  · exact ⟨crash', trivial⟩
  · exact ⟨crash', trivial⟩

/-! ## One command -/

/-- The master key is as it was, and the TPM and the lines read so far satisfy `Φ`. -/
def Left (Φ : Tpm → List Str → Prop) (keys : KeyStore) (x : Tpm × Console) : Prop :=
  Φ x.1 x.2.typed ∧ x.2.keys = keys

/-- The account of the user is one that the caller may make of it. -/
def Grants (env : Env) (serves : Serves uid) (t : Tpm) (acc : Account) (t' : Tpm) (typed : List Str) :
    Prop :=
  ∃ a, t' = t.put serves a ∧ acc.Granted env uid typed a

theorem Grants.start {typed : List Str} : Grants env serves t acc (t.put serves acc) typed :=
  ⟨acc, rfl, .same⟩

theorem canManage_own (caller : env.uid ≠ 0) (manages : env.canManagePin uid = true) :
    env.uid = uid := by
  simpa [Env.canManagePin, caller] using manages

theorem canAttempt_own (own : env.uid = uid) : env.canAttemptPin uid = true := by
  simp [Env.canAttemptPin, own]

theorem setupPin_left {name : Str} (caller : env.uid ≠ 0)
    (found : env.getUidFromUsername name = .ok uid) :
    wpx (frailHost fun _ => True) (Left (Grants env serves t acc) keys) (Util.setupPin env name)
      (fun _ _ => True) (t.put serves acc, .start keys) := by
  apply Util.wpx_setupPin found serving_faulty (fun _ => ⟨.start, rfl⟩) (fun _ _ => trivial)
  intro manages _ line pin rest _ made
  apply wpx_setupPin _ trivial fun _ _ _ _ _ _ _ => trivial
  intro a sets
  have own := canManage_own caller manages
  refine ⟨⟨a, rfl, ?_⟩, rfl⟩
  cases sets with
  | start => exact .same
  | defined fresh => exact .fresh own (refusal_eq_none.1 fresh).2.1
  | stored fresh => exact .fresh own (refusal_eq_none.1 fresh).2.1
  | rolledBack fresh => exact .fresh own (refusal_eq_none.1 fresh).2.1

/-- After a PIN that the account accepts anything may be made of it. -/
theorem left_proven {line : Str} {c : PinCounters} (attempts : env.canAttemptPin uid = true)
    (made : Pin.new line env.policy = .ok pin) (accepts : acc.Accepts pin c) (a : Account)
    (lines : List Str) :
    Left (Grants env serves t acc) keys (t.put serves a, (Console.start keys).types (line :: lines)) :=
  ⟨⟨a, rfl, .proven attempts List.mem_cons_self made accepts⟩, rfl⟩

theorem left_verified {line : Str} (attempts : env.canAttemptPin uid = true)
    (made : Pin.new line env.policy = .ok pin) (verifies : acc.Verifies uid pin limit a)
    (lines : List Str) :
    Left (Grants env serves t acc) keys (t.put serves a,
      (Console.start keys).types (line :: lines)) := by
  rcases verifies.secret with same | ⟨c, accepts⟩
  · exact ⟨⟨a, rfl, .tried attempts same⟩, rfl⟩
  · exact left_proven attempts made accepts a lines

theorem changePin_left {name : Str} (caller : env.uid ≠ 0)
    (found : env.getUidFromUsername name = .ok uid) :
    wpx (frailHost fun _ => True) (Left (Grants env serves t acc) keys) (Util.changePin env name)
      (fun _ _ => True) (t.put serves acc, .start keys) := by
  apply Util.wpx_changePin found serving_faulty (fun _ => ⟨.start, rfl⟩) (fun _ _ => trivial)
  · intro _ own data _ _ line current made
    have attempts := canAttempt_own own
    by_cases accepts : ∃ c, acc.Accepts current c
    · obtain ⟨c, accepts⟩ := accepts
      have any := @left_proven env uid serves t acc keys current line c attempts made accepts
      apply wpx_mono (verifyPin_visits fun a _ => any a [])
      rintro (e | (data | locked | _)) _ _ ⟨a, -, rfl⟩
      · exact fun _ => trivial
      · refine ⟨connects_faulty,
          fun lines => ⟨any a lines, fun _ => trivial⟩, fun line' new rest _ _ => ?_⟩
        apply wpx_mono (deletePinWithAuth_visits fun a _ => any a _)
        rintro (e | (_ | locked | _)) _ _ ⟨a, -, rfl⟩
        · exact fun _ => trivial
        · exact wpx_setupPin (fun a _ => any a _) trivial fun _ _ _ _ _ _ _ => trivial
        · exact fun _ => trivial
        · exact fun _ => trivial
      · exact fun _ => trivial
      · exact fun _ => trivial
    · apply wpx_mono (wpx_verifyPin_unaccepted accepts fun a verifies =>
        left_verified attempts made verifies [])
      rintro (e | (data | locked | _)) _ _ fails
      · exact fun _ => trivial
      · exact absurd rfl (fails data)
      · exact fun _ => trivial
      · exact fun _ => trivial
  · exact fun root => absurd root caller

theorem deletePin_left {name : Str} (caller : env.uid ≠ 0)
    (found : env.getUidFromUsername name = .ok uid) :
    wpx (frailHost fun _ => True) (Left (Grants env serves t acc) keys) (Util.deletePin env name)
      (fun _ _ => True) (t.put serves acc, .start keys) := by
  apply Util.wpx_deletePin found serving_faulty (fun _ => ⟨.start, rfl⟩) (fun _ _ => trivial)
  · exact fun root => absurd root caller
  · exact fun root => absurd root caller
  · intro _ own data _ _ line pin made
    have attempts := canAttempt_own own
    by_cases accepts : ∃ c, acc.Accepts pin c
    · obtain ⟨c, accepts⟩ := accepts
      exact wpx_mono (deletePinWithAuth_visits fun a _ => left_proven attempts made accepts a [])
        fun _ _ _ _ => trivial
    · exact wpx_deletePinWithAuth_unaccepted accepts fun a verifies =>
        left_verified attempts made verifies []

theorem testPin_left {name : Str} (found : env.getUidFromUsername name = .ok uid) :
    wpx (frailHost fun _ => True) (Left (Grants env serves t acc) keys) (Util.testPin env name)
      (fun _ _ => True) (t.put serves acc, .start keys) := by
  apply Util.wpx_testPin found serving_faulty (fun _ => ⟨.start, rfl⟩) (fun _ _ => trivial)
  intro attempts data _ _ line pin made
  apply wpx_mono (verifyPin_visits fun a verifies => left_verified attempts made verifies [])
  exact fun _ _ _ _ => ⟨fun _ _ _ => trivial, fun _ _ => trivial⟩

/-! ## The process -/

theorem Left.reported {Φ : Tpm → List Str → Prop} {α : Type} [Serialize α] {r : PinResult α}
    {x : Tpm × Console} (left : Left Φ keys x) : Left Φ keys (x.1, env.reported r x.2) := by
  unfold Env.reported
  split <;> exact left

/-- The TPM is as it was, but for an account that the caller named. -/
def Touches (env : Env) (t t' : Tpm) (typed : List Str) : Prop :=
  t' = t ∨ ∃ (uid : UInt32) (serves : Serves uid) (acc : Account), t.Shows serves acc ∧
  Grants env serves t acc t' typed

theorem touches_unmoved : Unmoved (Left (Touches env t) keys) (fun _ => True) t keys where
  crash _ := ⟨.inl rfl, rfl⟩
  done _ := trivial
  reported _ _ left _ := ⟨left, trivial⟩

/-- A command on a user, by what it does to the account. -/
theorem main_left_user (command : UserCommand) (accounts : t.Accounts)
    (known : ∀ name uid (serves : Serves uid) acc, env.getUidFromUsername name = .ok uid →
      wpx (frailHost fun _ => True) (Left (Grants env serves t acc) keys)
        (command.program env name) (fun _ _ => True)
        (t.put serves acc, .start keys)) :
    wpx (frailHost fun _ => True) (Left (Touches env t) keys) (Util.main env (command.named username))
      (fun _ _ => True)
      (t, .start keys) := by
  apply wpx_main_user touches_unmoved accounts
  intro name uid serves acc found shows_
  exact Prog.wp_behaviour (known name uid serves acc found) (fun _ _ _ _ step => step)
    fun x left => ⟨.inr ⟨uid, serves, acc, shows_, left.1⟩, left.2⟩

/-- A run of a user ends, or is killed, with one account touched at most. -/
theorem main_left {command : Commands} (caller : env.uid ≠ 0) (accounts : t.Accounts) :
    wpx (frailHost fun _ => True) (Left (Touches env t) keys) (Util.main env command) (fun _ _ => True)
      (t, .start keys) := by
  cases command with
  | setup username =>
    exact main_left_user .setup accounts fun _ _ _ _ found => setupPin_left caller found
  | change username =>
    exact main_left_user .change accounts fun _ _ _ _ found => changePin_left caller found
  | delete username =>
    exact main_left_user .delete accounts fun _ _ _ _ found => deletePin_left caller found
  | test username => exact main_left_user .test accounts fun _ _ _ _ found => testPin_left found
  | status username => exact wpx_main_status touches_unmoved accounts
  | masterKey command =>
    have start : Left (Touches env t) keys (t, .start keys) := ⟨.inl rfl, rfl⟩
    have denied : Util.requireRoot env = .error .permissionDenied := if_pos caller
    have refused :
        wpx (frailHost fun _ => True) (Left (Touches env t) keys)
          (Util.handleResult env (.error .permissionDenied : PinResult Unit))
          (fun r _ => ∀ u, r ≠ .ok u) (t, .start keys) := by
      have thrown : Util.report env (throw .permissionDenied : UtilM Unit) =
          Util.handleResult env (.error .permissionDenied) := rfl
      rw [← thrown]
      apply wpx_report
      exact ⟨start, start.reported, by simp [reportExit]⟩
    unfold Util.main
    rw [denied]
    apply wpx_seq refused
    · exact fun u _ _ ok => absurd rfl (ok u)
    · exact fun _ _ _ _ => trivial

/-! ## Sequences of runs -/

theorem put_secret {uid' : UInt32} {serves' : Serves uid'} : (t.put serves acc).secret serves' =
    if uid' = uid then acc.slot.index.map NvIndex.secret else t.secret serves' := by
  unfold Tpm.secret
  by_cases same : uid' = uid
  · subst same
    rw [if_pos rfl, put_slot]
  · rw [if_neg same, put_of_ne (fun eq => same (slotHandle_inj.1 eq)) slotHandle_ne_tagHandle]

/-- One run of a user. -/
theorem Invocation.Happens.separated {x : Invocation} (caller : x.env.uid ≠ 0)
    (accounts : x.before.1.Accounts) (happens : x.Happens fun _ => True) :
    Separated x ∧ x.after.1.Accounts := by
  obtain ⟨o, u, ends, typed, keys⟩ := happens
  obtain ⟨⟨touches, same⟩, -, -⟩ := Prog.wp_ends (main_left caller accounts) ends
  rw [typed] at touches
  have kept : x.after.2 = x.before.2 := keys.symm.trans same
  rcases touches with untouched | ⟨uid, serves, acc, shows_, a, left, granted⟩
  · refine ⟨⟨kept, ?_, ?_, ?_⟩, untouched ▸ accounts⟩
    · intro uid serves _ changed
      exact absurd (by rw [untouched]) changed
    · intro _ uid serves _
      rw [untouched]
      exact ⟨rfl, rfl⟩
    · intro serves _ changed
      exact absurd (by rw [untouched]) changed
  · have before : x.before.1.secret serves = acc.slot.index.map NvIndex.secret :=
      congrArg (Option.map NvIndex.secret) shows_.1
    -- a change of the secret of any slot is one of this slot
    have here : ∀ uid' (serves' : Serves uid'), x.after.1.secret serves' ≠ x.before.1.secret serves' →
        uid' = uid ∧ a.slot.index.map NvIndex.secret ≠ acc.slot.index.map NvIndex.secret := by
      intro uid' serves' changed
      rw [left, put_secret] at changed
      by_cases same : uid' = uid
      · subst same
        rw [if_pos rfl, before] at changed
        exact ⟨rfl, changed⟩
      · rw [if_neg same] at changed
        exact absurd rfl changed
    refine ⟨⟨kept, ?_, ?_, ?_⟩, left ▸ accounts.put a⟩
    · intro uid' serves' other changed
      obtain ⟨rfl, moved⟩ := here uid' serves' changed
      cases granted with
      | same => exact absurd rfl moved
      | tried _ secret => exact absurd secret moved
      | fresh own => exact absurd own.symm other
      | proven _ entered made accepts => exact ⟨_, entered, _, acc, _, made, shows_, accepts⟩
    · intro unprivileged uid' serves' other
      by_cases same : uid' = uid
      · subst same
        have denied : x.env.canAttemptPin uid' = false := by
          simp [Env.canAttemptPin, unprivileged, other.symm]
        rw [left, put_slot, put_tag, shows_.1, shows_.2]
        cases granted with
        | same => exact ⟨rfl, rfl⟩
        | tried attempts => simp [denied] at attempts
        | fresh own => exact absurd own.symm other
        | proven attempts => simp [denied] at attempts
      · rw [left]
        exact ⟨put_of_ne (fun eq => same (slotHandle_inj.1 eq)) slotHandle_ne_tagHandle,
          put_of_ne slotHandle_ne_tagHandle.symm fun eq => same (tagHandle_inj.1 eq)⟩
    · intro serves' present changed
      obtain ⟨own, moved⟩ := here _ serves' changed
      cases granted with
      | same => exact absurd rfl moved
      | tried _ secret => exact absurd secret moved
      | fresh _ absent =>
        subst own
        rw [before, absent] at present
        exact absurd rfl present
      | proven _ entered made accepts =>
        subst own
        exact ⟨_, entered, _, acc, _, made, shows_, accepts⟩

/-- However often a user who is not root runs pinutil, each run leaves the accounts and the
master key apart. -/
theorem privileges_separated {caller : UInt32} {xs : List Invocation} {s s' : Tpm × KeyStore}
    (user : caller ≠ 0) (accounts : s.1.Accounts)
    (session : Session (fun x => x.Happens (fun _ => True) ∧ x.env.uid = caller) xs s s') :
    s'.2 = s.2 ∧ ∀ x ∈ xs, Separated x := by
  induction session with
  | nil => simp
  | @cons x xs s' first _ ih =>
    obtain ⟨happens, own⟩ := first
    obtain ⟨separated, accounts'⟩ := happens.separated (own ▸ user) accounts
    obtain ⟨keys, rest⟩ := ih accounts'
    exact ⟨keys.trans separated.keys, List.forall_mem_cons.2 ⟨separated, rest⟩⟩

end Privileges

/-! ## Samples -/

/-- The user mistypes the PIN in a test. -/
def userTest : Invocation :=
  Invocation.given idleKeys sampleEnv (.test none) userSetup.after [.ok "4243".toList]

/-- And asks for the master key. -/
def userClear : Invocation :=
  Invocation.given idleKeys sampleEnv (.masterKey .clearFromTpm) userTest.after []

theorem privileges_separated_once :
    userClear.after.2 = ⟨none, none, none⟩ ∧ ∀ x ∈ [userSetup, userTest, userClear], Separated x := by
  have session :
      Session (fun x => x.Happens (fun _ => True) ∧ x.env.uid = 1000) [userSetup, userTest, userClear]
        (Tpm.empty, ⟨none, none, none⟩) userClear.after :=
    .cons ⟨Invocation.given_happens, rfl⟩
      (.cons ⟨Invocation.given_happens, rfl⟩ (.cons ⟨Invocation.given_happens, rfl⟩ (.nil _)))
  exact privileges_separated (by decide) Tpm.empty_accounts session

end Pinpam
