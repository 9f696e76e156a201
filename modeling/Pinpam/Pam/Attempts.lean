import Pinpam.Pam.FirstPass
import Pinpam.Pam.Verdicts
import Pinpam.Util.Remaining

/-!
# The attempts of a session

The module counts a rejected first pass itself. Its count stays below the limit whenever
it prompts, and where the helper works on the slot that it reported, the difference it
prompts with is what the TPM still allows.
-/

namespace Pinpam
set_option autoImplicit false
open Pinpam.Effect Pinpam.Effect.Fallible

/-- How a run prompts and tests. -/
structure Ledger.Accounted (args : List Str) (l : Ledger) (code : PamReturnCode) : Prop where
  prompts : l.asked.length ≤ 1
  tests : l.first.length + l.second.length ≤ 2
  again : l.first.length + l.second.length = 2 → l.first = [.ok .invalidPin] ∧
    "try_first_pass".toList ∈ args ∧ "use_first_pass".toList ∉ args ∧
    ∃ used limit, l.status = [.available used limit] ∧ used.toNat + 1 < limit.toNat
  /-- the prompt is for the reported difference, less one for a rejected first pass -/
  counted : ∀ prompt ∈ l.asked, (l.first = [] ∨ l.first = [.ok .invalidPin]) ∧ ∃ used limit remaining,
    l.status = [.available used limit] ∧ Pam.promptText remaining = some prompt ∧ 1 ≤ remaining.toNat ∧
      remaining.toNat + l.first.length + used.toNat = limit.toNat
  /-- a difference of zero would give this code without a prompt -/
  nonzero : l.asked = [] → code = .authinfoUnavail → ∀ used limit, l.status = [.available used limit] →
    ∃ test ∈ l.first, testCode test = .authinfoUnavail

section Accounts

variable {policy : PinPolicy} {args : List Str} {authtok : Option Str} {used used' limit : UInt32}
  {first : List (Except Str PinutilTestOutcome)} {l : Ledger} {code : PamReturnCode}

/-- Below a limit the saturating sum is the sum. -/
theorem saturatingAdd_below (below : Pam.saturatingAdd used 1 < limit) :
    (Pam.saturatingAdd used 1).toNat = used.toNat + 1 := by
  have bound := limit.toNat_lt
  have small := UInt32.lt_iff_toNat_lt.1 below
  unfold Pam.saturatingAdd checkedAdd at small ⊢
  rw [UInt32.toNat_one] at small ⊢
  by_cases fits : used.toNat + 1 < 2 ^ 32
  · rw [if_pos fits, Option.getD_some, UInt32.toNat_add, UInt32.toNat_one]
    omega
  · rw [if_neg fits, Option.getD_none] at small
    have most : (0 - 1 : UInt32).toNat = 2 ^ 32 - 1 := by decide
    omega

/-- How the second phase is come to, and its count below the limit. -/
theorem Ledger.Enters.counts (enters : Ledger.Enters policy (.fromStrs args) authtok used first used') :
    (first = [] ∨ first = [.ok .invalidPin] ∧ "try_first_pass".toList ∈ args ∧
      "use_first_pass".toList ∉ args) ∧
      (used' < limit → used'.toNat = used.toNat + first.length) := by
  cases enters with
  | prompted decision => exact ⟨.inl rfl, fun _ => rfl⟩
  | rejected pin decision use =>
    have from_ := @decideFirstPass_cases policy (.fromStrs args) authtok
    rw [decision] at from_
    have tries : (ModuleArgs.fromStrs args).tryFirstPass = true := by
      simpa [ModuleArgs.wantsFirstPass, use] using from_.1
    have silent : "use_first_pass".toList ∉ args := by
      rw [← fromStrs_use, use]
      exact Bool.false_ne_true
    exact ⟨.inr ⟨rfl, fromStrs_try.1 tries, silent⟩, saturatingAdd_below⟩

/-- The prompt of the second phase. -/
theorem Ledger.Enters.prompts {prompt : PamText}
    (enters : Ledger.Enters policy (.fromStrs args) authtok used first used') (left : used' < limit)
    (shown : Pam.promptText (limit - used') = some prompt) :
    (first = [] ∨ first = [.ok .invalidPin]) ∧ ∃ remaining : UInt32,
    Pam.promptText remaining = some prompt ∧
      1 ≤ remaining.toNat ∧ remaining.toNat + first.length + used.toNat = limit.toNat := by
  obtain ⟨how, count⟩ := @Ledger.Enters.counts policy args authtok used used' limit first enters
  have below := UInt32.lt_iff_toNat_lt.1 left
  have difference := UInt32.toNat_sub_of_le _ _ (UInt32.le_iff_toNat_le.2 below.le)
  have counted := count left
  refine ⟨how.imp id And.left, limit - used', shown, ?_⟩
  omega

theorem Ledger.Course.accounted (course : Ledger.Course policy (.fromStrs args) authtok l code) :
    l.Accounted args code := by
  cases course with
  | unknown => exact ⟨by simp [empty], by simp [empty], nofun, nofun, fun _ => nofun⟩
  | closed other =>
    refine ⟨by simp, by simp, nofun, nofun, fun _ _ used limit same => ?_⟩
    exact absurd (List.singleton_inj.1 same) (other used limit)
  | denied decision => exact ⟨by simp, by simp, nofun, nofun, fun _ => nofun⟩
  | ended decision last =>
    exact ⟨by simp, by simp, nofun, nofun, fun _ code _ _ _ => ⟨_, List.mem_cons_self, code⟩⟩
  | @exhausted used used' limit first enters spent =>
    obtain ⟨how, -⟩ := @Ledger.Enters.counts policy args authtok used used' limit first enters
    rcases how with rfl | ⟨rfl, -⟩
    · exact ⟨by simp, by simp, nofun, nofun, fun _ => nofun⟩
    · exact ⟨by simp, by simp, nofun, nofun, fun _ => nofun⟩
  | @asked used used' limit first prompt code enters left shown =>
    obtain ⟨how, counted⟩ := enters.prompts left shown
    constructor
    · simp
    · rcases how with rfl | rfl <;> simp
    · rcases how with rfl | rfl <;> exact nofun
    · intro prompt' member
      obtain rfl := List.mem_singleton.1 member
      exact ⟨how, used, limit, counted.imp fun _ rest => ⟨rfl, rest⟩⟩
    · exact nofun
  | @tested used used' limit first prompt test enters left shown =>
    obtain ⟨how, counted⟩ := enters.prompts left shown
    obtain ⟨flags, -⟩ := @Ledger.Enters.counts policy args authtok used used' limit first enters
    constructor
    · simp
    · rcases how with rfl | rfl <;> simp
    · intro two
      rcases flags with rfl | ⟨rfl, tries, silent⟩
      · cases two
      · obtain ⟨remaining, -, positive, sum⟩ := counted
        refine ⟨rfl, tries, silent, used, limit, rfl, ?_⟩
        simp only [List.length_singleton] at sum
        omega
    · intro prompt' member
      obtain rfl := List.mem_singleton.1 member
      exact ⟨how, used, limit, counted.imp fun _ rest => ⟨rfl, rest⟩⟩
    · exact nofun

end Accounts

/-! ## The helper -/

/-- Not the error of a wrong PIN on a slot that it leaves open. -/
def Unblamed (e : PinError) : Prop := e ≠ .incorrectPin false

section Unblamed

variable {uid : UInt32} {m : PinManager} {pin : Pin} {env : Env}

theorem readPinSlotOwner_unblamed {i : NvIndexTpmHandle} : ThrowsX Unblamed (readPinSlotOwner i) := by
  unfold readPinSlotOwner
  apply throwsX_bind throwsX_attempt
  intro result
  split
  · exact throwsX_pure
  · exact throwsX_pure
  · exact throwsX_pure
  · exact throwsX_throw nofun

theorem nvIndexForUid_unblamed :
    ThrowsX Unblamed (ofResult (nvIndexForUid uid) : PinM NvIndexTpmHandle) := by
  apply throwsX_ofResult
  intro e failed
  by_cases serves : Serves uid
  · rw [nvIndexForUid_eq serves] at failed
    cases failed
  · rw [nvIndexForUid_overflow serves] at failed
    cases failed
    exact nofun

theorem getPinSlot_unblamed : ThrowsX Unblamed (getPinSlot uid) :=
  throwsX_bind nvIndexForUid_unblamed fun _ => readPinSlotOwner_unblamed

theorem ofTss_unblamed {α : Type} {x : TssM α} : ThrowsX Unblamed (ofTss x) :=
  throwsX_mapErr fun _ => nofun

theorem readPinVersionTag_unblamed : ThrowsX Unblamed (readPinVersionTag uid) := by
  unfold readPinVersionTag
  apply throwsX_bind
  · apply throwsX_ofResult
    intro e failed
    by_cases serves : Serves uid
    · rw [versionNvIndexForUid_eq serves] at failed
      cases failed
    · rw [versionNvIndexForUid_overflow serves] at failed
      cases failed
      exact nofun
  · intro i
    apply throwsX_bind throwsX_attempt
    intro result
    split
    · split
      · exact throwsX_throw nofun
      · exact throwsX_pure
    · exact throwsX_pure
    · exact throwsX_pure
    · exact throwsX_throw nofun

theorem verifyPinExact_unblamed {bytes : Bytes} : ThrowsX Unblamed (verifyPinExact uid bytes) := by
  unfold verifyPinExact
  apply throwsX_bind nvIndexForUid_unblamed
  intro i
  apply throwsX_bind ofTss_unblamed
  intro _
  apply throwsX_bind throwsX_attempt
  intro data
  dsimp only
  split
  · exact throwsX_pure
  · exact throwsX_bind throwsX_attempt fun _ => throwsX_pure
  · exact throwsX_bind throwsX_attempt fun _ => throwsX_pure
  · exact throwsX_throw nofun
  · exact throwsX_throw nofun
  · exact throwsX_throw nofun

theorem verifyPin_unblamed : ThrowsX Unblamed (m.verifyPin uid pin) := by
  unfold PinManager.verifyPin
  apply throwsX_bind readPinVersionTag_unblamed
  intro tag
  cases tag with
  | some version =>
    dsimp only
    split
    · exact throwsX_throw nofun
    · exact verifyPinExact_unblamed
  | none =>
    apply throwsX_bind verifyPinExact_unblamed
    intro result
    cases result with
    | success slot =>
      apply throwsX_bind ofTss_unblamed
      intro _
      apply throwsX_bind throwsX_attempt
      intro _
      exact throwsX_bind ofTss_unblamed fun _ => throwsX_pure
    | invalid locked => exact throwsX_pure
    | lockedOut => exact throwsX_pure

theorem promptPin_unblamed {prompt : Text} {attempts : Option (UInt32 × UInt32)}
    (machine : env.machine = true) :
    ThrowsX Unblamed (Util.promptPin env prompt attempts) := by
  have reads : ThrowsX Unblamed readLine := by
    apply throwsX_op
    rintro (err | line) e ⟨⟩
    exact nofun
  have parses : ∀ line, ThrowsX Unblamed (ofResult (Pin.new line env.policy) : UtilM Pin) := by
    intro line
    apply throwsX_ofResult
    rintro e failed rfl
    unfold Pin.new at failed
    split at failed
    · cases failed
    next err invalid =>
      cases failed
      simp only [PinPolicy.validate] at invalid
      repeat' split at invalid
      all_goals cases invalid
  unfold Util.promptPin
  rw [if_pos machine]
  exact throwsX_bind reads parses

theorem newManager_unblamed : ThrowsX Unblamed (Util.newManager env) :=
  throwsX_inl (throwsX_bind ofTss_unblamed fun _ => throwsX_pure)

theorem getAttemptInfo_unblamed : ThrowsX Unblamed (Util.getAttemptInfo uid) :=
  throwsX_bind (throwsX_inl getPinSlot_unblamed) fun _ => throwsX_pure

end Unblamed

section Helper

variable {uid : UInt32} {serves : Serves uid} {t : Tpm} {a : Auth} {c : PinCounters}
  {tag : TagState} {env : Env} {username : Str} {u : Console}

/-- What is left of the slot if the PIN is reported as wrong and the slot as open. -/
def Blames (serves : Serves uid) (a : Auth) (c : PinCounters) (r : PinResult Unit) (t : Tpm) : Prop :=
  r = .error (.incorrectPin false) → ¬ c.locked ∧ ∃ tag,
  t.Shows serves ⟨.written a (c.after false), tag⟩

theorem blames_other {r : PinResult Unit} (other : ∀ e, r = .error e → Unblamed e) :
    Blames serves a c r t :=
  fun same => absurd rfl (other _ same)

/-- A verification that rejects the PIN has counted it. -/
theorem verifyPin_rejects {pin : Pin} {limit : UInt32} {locked : Bool}
    (rejected : (Account.verifyPin uid pin limit ⟨.written a c, tag⟩).1 = .ok (.invalid locked)) :
    ¬ c.locked ∧
      (Account.verifyPin uid pin limit ⟨.written a c, tag⟩).2 = ⟨.written a (c.after false), tag⟩ := by
  obtain ⟨bytes, exact_⟩ := verifyPin_missed rejected nofun
  rw [exact_] at rejected ⊢
  rw [verifyPinExact_snd rejected]
  unfold Account.verifyPinExact at rejected
  split at rejected
  · cases rejected
  unfold SlotState.verdict at rejected
  dsimp only at rejected ⊢
  by_cases closed : c.locked
  · rw [if_pos closed] at rejected
    cases rejected
  rw [if_neg closed] at rejected
  by_cases hit : Auth.ofBytes bytes = a
  · rw [if_pos hit] at rejected
    split at rejected <;> cases rejected
  · exact ⟨closed, by rw [compared_miss closed hit]⟩

theorem wpx_testPin_blames (machine : env.machine = true)
    (resolved : env.getUidFromUsername username = .ok uid) :
    wpx anyHost (fun _ => True) (Util.testPin env username)
      (fun r x => Blames serves a c r x.1 ∧ x.2.printed = u.printed)
      (t.put serves ⟨.written a c, tag⟩, u) := by
  have other : ∀ {e : PinError} {x : Tpm × Console}, Unblamed e → x.2.printed = u.printed →
      True ∧ Blames serves a c (.error e) x.1 ∧ x.2.printed = u.printed := by
    refine fun unblamed silent => ⟨trivial, blames_other ?_, silent⟩
    rintro _ ⟨⟩
    exact unblamed
  unfold Util.testPin
  rw [resolved, ofResult_ok_bind]
  split
  · exact other (by simp [Unblamed]) rfl
  let start := (t.put serves ⟨.written a c, tag⟩, u)
  have manager : wpx anyHost (fun _ => True) (Util.newManager env) (fun _ x => x = start) start :=
    wpx_newManager connects_faulty trivial rfl fun _ => rfl
  have info : wpx anyHost (fun _ => True) (Util.getAttemptInfo uid)
      (fun r x => x = start ∧ ∀ i, r = .ok i → i = some (AttemptInfo.fromPinData c.data)) start := by
    apply wpx_getAttemptInfo serving_faulty trivial
    · refine ⟨rfl, ?_⟩
      rintro _ ⟨⟩
      rfl
    · exact fun _ => ⟨rfl, by simp⟩
  have prompt : wpx anyHost (fun _ => True)
      (Util.promptPin env .pinLiteral (some (AttemptInfo.fromPinData c.data).promptTuple))
      (fun _ x => x.1 = start.1 ∧ x.2.printed = u.printed) start :=
    wpx_promptPin (fun _ => trivial) (fun _ _ => ⟨rfl, rfl⟩) fun _ _ _ => ⟨rfl, rfl⟩
  have verified :
      ∀ (m : PinManager) (pin : Pin) (u : Console),
      wpx anyHost (fun _ => True) (manage (m.verifyPin uid pin))
        (fun r x => x.2 = u ∧ ∀ locked, r = .ok (.invalid locked) →
          ¬ c.locked ∧ ∃ tag, x.1.Shows serves ⟨.written a (c.after false), tag⟩) (start.1, u) := by
    intro m pin u
    apply wpx_manage
    have rejects :
        ∀ locked, (Account.verifyPin uid pin m.policy.maxAttempts ⟨.written a c, tag⟩).1 =
        .ok (.invalid locked) →
        ¬ c.locked ∧ ∃ tag',
        (t.put serves (Account.verifyPin uid pin m.policy.maxAttempts ⟨.written a c, tag⟩).2).Shows
        serves
          ⟨.written a (c.after false), tag'⟩ := by
      intro locked rejected
      obtain ⟨open_, left⟩ := verifyPin_rejects rejected
      rw [left]
      exact ⟨open_, tag, Tpm.put_shows⟩
    apply wpx_verifyPin (fun _ _ => trivial) ⟨rfl, rejects⟩
    · exact fun _ _ _ _ _ _ _ => ⟨rfl, by simp⟩
    · exact fun _ _ _ _ _ _ _ _ _ => ⟨rfl, by simp⟩
    · exact fun rejected _ => ⟨rfl, fun _ _ => rejects true rejected⟩
  apply wpx_bind.2 (wpx_mono (wpx_throws newManager_unblamed manager) _)
  rintro (e | m) x - ⟨rfl, unblamed⟩
  · exact other (unblamed e rfl) rfl
  apply wpx_bind.2 (wpx_mono (wpx_throws getAttemptInfo_unblamed info) _)
  rintro (e | i) x - ⟨⟨rfl, known⟩, unblamed⟩
  · exact other (unblamed e rfl) rfl
  obtain rfl := known i rfl
  dsimp only
  split
  · rw [human_machine machine]
    exact other (by simp [Unblamed]) rfl
  apply wpx_bind.2 (wpx_mono (wpx_throws (promptPin_unblamed machine) prompt) _)
  rintro (e | pin) ⟨t', u'⟩ - ⟨⟨same, silent⟩, unblamed⟩
  · exact other (unblamed e rfl) silent
  obtain rfl := same
  apply wpx_bind.2 (wpx_mono (wpx_throws (throwsX_inl verifyPin_unblamed) (verified m pin u')) _)
  rintro (e | (slot | locked | _)) ⟨t'', u''⟩ - ⟨⟨rfl, rejects⟩, unblamed⟩
  · exact other (unblamed e rfl) silent
  · dsimp only
    exact ⟨trivial, by rintro ⟨⟩, silent⟩
  · dsimp only
    exact ⟨trivial, fun _ => rejects locked rfl, silent⟩
  · dsimp only
    exact other (by simp [Unblamed]) silent

/-- A run of the helper's test, with the output it leaves; one that was cut short leaves
none that can be read. -/
inductive HelperTests (uid : UInt32) (username : Str) : Tpm → Except Str Output → Tpm → Prop where
  | ended {env : Env} {t t' : Tpm} {keys : KeyStore} {events : List (Event UtilCmd (Tpm × Console))}
      {r : Except Stop Unit} {u : Console} (machine : env.machine = true)
      (found : env.uidOf username = some uid)
      (run : (Util.main env (.test (some username))).run.Runs anyHost (t, .start keys)
        events r (t', u)) :
      HelperTests uid username t (.ok ⟨exitStatus r, u.printed.head?⟩) t'
  | broken {t t' : Tpm} {r : Except Str Output} (unread : ∃ e, pinutilTest r = .error e) :
      HelperTests uid username t r t'

/-- The helper's test is one of its runs. -/
theorem helperTest_tests {ops : KeyOps} {env : Env} {keys : KeyStore} {username text : Str} {t : Tpm}
    (machine : env.machine = true) (found : env.uidOf username = some uid) :
    HelperTests uid username t (.ok (helperTest ops env keys username text t).1)
      (helperTest ops env keys username text t).2 := by
  have within : Within (process ops) (Prod.map id Stdin.console) anyHost :=
    (Tpm.exec.within_faulty fun _ => True).sum (Stdin.handler_within ops)
  have run := Prog.runs_run within (Util.main env (.test (some username))).run (t, .piped text keys)
  exact .ended machine found run

/-- A session whose helper works on the slot, which nobody else does, and has reported it. -/
def Attended (serves : Serves uid) : Behaviour PamCmd Tpm
  | .sendMessage .., t, _, t' => t' = t
  | .converse _, t, _, t' => t' = t
  | .pinutilStatus _, t, r, t' => t' = t ∧ ∀ used limit, pinutilStatus r = .available used limit →
      ∃ a tag, t.Shows serves ⟨.written a ⟨used, limit⟩, tag⟩
  | .pinutilTest username _, t, r, t' => HelperTests uid username t r t'

theorem spoken_attended : Spoken (Attended serves) := fun _ _ _ _ _ act => act

/-- A test that rejects the PIN has counted it. -/
theorem HelperTests.rejects {r : Except Str Output} {t' : Tpm} (tests : HelperTests uid username t r t')
    (rejected : pinutilTest r = .ok .invalidPin) (shows_ : t.Shows serves ⟨.written a c, tag⟩) :
    ¬ c.locked ∧ ∃ tag, t'.Shows serves ⟨.written a (c.after false), tag⟩ := by
  cases tests with
  | broken unread =>
    obtain ⟨e, unread⟩ := unread
    cases rejected.symm.trans unread
  | @ended env _ _ keys events res u machine found run =>
    have resolved : env.getUidFromUsername username = .ok uid := by rw [Env.getUidFromUsername, found]
    rw [← shows_.eq_put] at run
    have told : wpx anyHost (fun _ => True) (Util.main env (.test (some username)))
        (fun _ x => ∃ r : PinResult Unit, x.2.printed = [toJson r] ∧ Blames serves a c r x.1)
        (t.put serves ⟨.written a c, tag⟩, .start keys) := by
      apply wpx_report
      refine wpx_mono (wpx_testPin_blames machine resolved) fun r x _ post => ⟨trivial, r, ?_, post.1⟩
      simp only [Env.reported, machine, if_true, Console.prints_printed, post.2]
      rfl
    obtain ⟨report, printed, blames⟩ := run.post told
    rw [show u.printed = _ from printed, List.head?_cons, pinutilTest_report] at rejected
    apply blames
    cases report with
    | ok _ => cases rejected
    | error e =>
      cases e with
      | incorrectPin locked => cases locked <;> first | rfl | cases rejected
      | _ => cases rejected

end Helper

/-! ## Sessions with the helper -/

/-- The states in which the user is prompted. -/
def promptedOn {S : Type} : Event PamCmd S → List S
  | ⟨s, .converse _, _, _⟩ => [s]
  | _ => []

def Ledger.noteBoth {S : Type} (x : Ledger × List S) (event : Event PamCmd S) : Ledger × List S :=
  (x.1.note event, x.2 ++ promptedOn event)

theorem foldl_noteBoth {S : Type} {events : List (Event PamCmd S)} {l : Ledger} {prompted : List S} :
    events.foldl Ledger.noteBoth (l, prompted) = (events.foldl Ledger.note l,
      prompted ++ events.flatMap promptedOn) := by
  induction events generalizing l prompted with
  | nil => simp
  | cons event events ih => simp [Ledger.noteBoth, ih]

/-- The slot allows the reported difference, less the tests before the prompt. -/
def LeftOn {uid : UInt32} (serves : Serves uid) (l : Ledger) (t : Tpm) : Prop :=
  ∃ a c tag used limit, t.Shows serves ⟨.written a c, tag⟩ ∧ l.status = [.available used limit] ∧
    c.Allows (limit.toNat - used.toNat - l.first.length)

section Attended

variable {uid : UInt32} {serves : Serves uid} {t : Tpm} {policy : PinPolicy} {username : Str}
  {args : List Str} {authtok : Option Str} {used used' limit : UInt32}
  {first : List (Except Str PinutilTestOutcome)}

/-- What is known of a session at its end. -/
abbrev LeftAtEnd (serves : Serves uid) (_ : Except PamReturnCode PamReturnCode)
    (x : Tpm × Ledger × List Tpm) : Prop :=
  ∀ t ∈ x.2.2, LeftOn serves x.2.1 t

theorem spoken_both : Spoken (Folding Ledger.noteBoth (Attended serves)) := by
  apply spoken_folding spoken_attended
  intro g style text s r s'
  exact Prod.ext rfl (List.append_nil _)

theorem left_second (slot : used' < limit → (∃ a tag, t.Shows serves ⟨.written a ⟨used', limit⟩, tag⟩) ∧
    used'.toNat = used.toNat + first.length) :
    wpx (Folding Ledger.noteBoth (Attended serves)) (fun _ => True)
      (Pam.secondPhase policy username used' limit)
      (LeftAtEnd serves) (t, ⟨[.available used limit], first, [], []⟩, []) := by
  apply wpx_secondPhase spoken_both
  · exact fun _ => nofun
  · rintro left prompt shown r ⟨t', l, prompted⟩ ⟨-, same⟩
    obtain ⟨rfl, rfl⟩ : l = ⟨[.available used limit], first, [prompt], []⟩ ∧ prompted = [t] :=
      Prod.mk.inj same
    obtain ⟨⟨a, tag, shows_⟩, count⟩ := slot left
    have below := UInt32.lt_iff_toNat_lt.1 left
    have allows : PinCounters.Allows ⟨used', limit⟩ (limit.toNat - used.toNat - first.length) := by
      apply (allows_iff (UInt32.le_iff_toNat_le.2 below.le)).2
      dsimp only
      omega
    constructor
    · intro code _ t' member
      obtain rfl := List.mem_singleton.1 member
      exact ⟨a, _, tag, used, limit, shows_, rfl, allows⟩
    · rintro text pin - - r' ⟨t'', l', prompted'⟩ ⟨-, same'⟩ t' member
      obtain ⟨rfl, rfl⟩ :
        l' = ⟨[.available used limit], first, [prompt], [pinutilTest r']⟩ ∧ prompted' = [t] := by
        refine ⟨(Prod.mk.inj same').1, (Prod.mk.inj same').2⟩
      obtain rfl := List.mem_singleton.1 member
      exact ⟨a, _, tag, used, limit, shows_, rfl, allows⟩

/-- The helper's count after a rejected first pass is that of the module. -/
theorem rejected_slot {a : Auth} {tag : TagState} (below : Pam.saturatingAdd used 1 < limit)
    (shows_ : t.Shows serves ⟨.written a (PinCounters.after ⟨used, limit⟩ false), tag⟩) :
    t.Shows serves ⟨.written a ⟨Pam.saturatingAdd used 1, limit⟩, tag⟩ := by
  have same : Pam.saturatingAdd used 1 = used + 1 := by
    apply UInt32.toNat_inj.1
    have sum := saturatingAdd_below below
    have bound := (Pam.saturatingAdd used 1).toNat_lt
    rw [UInt32.toNat_add, UInt32.toNat_one]
    omega
  rw [same]
  exact shows_

/-- At the end of a session every prompt was for what the TPM had left. -/
theorem left_authenticateUser {username : Str} {uidOf : Str → Option UInt32} {t : Tpm} :
    wpx (Folding Ledger.noteBoth (Attended serves)) (fun _ => True)
      (Pam.authenticateUser policy username (.fromStrs args) uidOf authtok)
      (LeftAtEnd serves) (t, .empty, []) := by
  apply wpx_authenticateUser spoken_both
  · exact fun _ => nofun
  · rintro - r ⟨t', l, prompted⟩ ⟨-, same⟩ other code -
    obtain ⟨-, rfl⟩ : _ ∧ prompted = [] := Prod.mk.inj same
    exact nofun
  · rintro - r ⟨t', l, prompted⟩ ⟨⟨rfl, matched⟩, same⟩ used limit status
    obtain ⟨rfl, rfl⟩ : l = ⟨[pinutilStatus r], [], [], []⟩ ∧ prompted = [] := Prod.mk.inj same
    obtain ⟨a, tag, shows_⟩ := matched used limit status
    rw [status]
    apply wpx_firstPhase spoken_both
    · exact fun _ => nofun
    · rintro pin decision r' ⟨t'', l', prompted'⟩ ⟨tests, same'⟩
      obtain ⟨rfl, rfl⟩ : l' = ⟨[.available used limit], [pinutilTest r'], [], []⟩ ∧ prompted' = [] :=
        Prod.mk.inj same'
      constructor
      · exact fun _ => nofun
      · intro use invalid
        obtain ⟨-, tag', counted⟩ := HelperTests.rejects tests invalid shows_
        exact left_second fun below =>
          ⟨⟨a, tag', rejected_slot below counted⟩, saturatingAdd_below below⟩
    · exact fun decision => left_second fun _ => ⟨⟨a, tag, shows_⟩, rfl⟩

/-- A session prompts at most once and tests at most twice, with a count that neither
wraps nor is zero; where the helper works on the slot that it reported, the count is what
the TPM allows. -/
theorem attempts_accounted :
    (∀ username uidOf events r,
      (Pam.authenticateUser policy username (.fromStrs args) uidOf authtok).run.Runs
        Pam.any () events r () →
          (Ledger.ofEvents events).Accounted args (returnCode r)) ∧
    ∀ (uid : UInt32) (serves : Serves uid) username uidOf t events r t',
      (Pam.authenticateUser policy username (.fromStrs args) uidOf authtok).run.Runs
        (Attended serves) t events r t' →
          (Ledger.ofEvents events).Accounted args (returnCode r) ∧
            ∀ event ∈ events, ∀ prompt, event.op = .converse prompt →
              LeftOn serves (Ledger.ofEvents events) event.before := by
  constructor
  · exact fun username uidOf events r run => (authenticate_course spoken_any run).accounted
  intro uid serves username uidOf t events r t' run
  refine ⟨(authenticate_course spoken_attended run).accounted, ?_⟩
  have atEnd := run.recounted Ledger.noteBoth left_authenticateUser
  rw [foldl_noteBoth] at atEnd
  rintro ⟨s, op, answer, s'⟩ member prompt rfl
  exact atEnd s (List.mem_append_right _ (List.mem_flatMap.2 ⟨_, member, List.mem_cons_self⟩))

end Attended

/-! ## Samples -/

/-- A test by the helper, which is only there for one user. -/
def ownTest (username text : Str) (t : Tpm) : Except Str Output × Tpm :=
  if username = "alice".toList then
    (.ok (helperTest idleKeys sampleEnv ⟨none, none, none⟩ username text t).1,
      (helperTest idleKeys sampleEnv ⟨none, none, none⟩ username text t).2)
  else (.error [], t)

/-- A session after the status query, in which this is typed. -/
def afterStatus (typed : Str) : Handler PamCmd Tpm
  | .sendMessage .., t => (.ok (), t)
  | .converse _, t => (.ok (.text typed), t)
  | .pinutilStatus _, t => (.error [], t)
  | .pinutilTest username text, t => ownTest username text t

theorem afterStatus_attended {typed : Str} :
    Within (afterStatus typed) id (Attended serves_thousand) := by
  intro c t
  cases c with
  | sendMessage style text => exact rfl
  | converse prompt => exact rfl
  | pinutilStatus username => exact ⟨rfl, nofun⟩
  | pinutilTest username text =>
    show HelperTests 1000 username t (ownTest username text t).1 (ownTest username text t).2
    unfold ownTest
    by_cases own : username = "alice".toList
    · subst own
      rw [if_pos rfl]
      dsimp only
      exact helperTest_tests rfl rfl
    · rw [if_neg own]
      exact .broken ⟨_, rfl⟩

/-- What the helper reports of the account of the user. -/
def attendedStatus : Except Str Output :=
  .ok ⟨0, some (toJson (.ok (some ⟨0, 3⟩) : PinResult (Option AttemptInfo)))⟩

/-- After a token that is not the PIN, the PIN is typed. -/
def attendedPhase : PamM PamReturnCode :=
  Pam.firstPhase .default "alice".toList (.fromStrs ["try_first_pass".toList])
    (some "1111".toList) 0 3

def attendedEvents : List (Event PamCmd Tpm) :=
  ⟨plainTpm, .pinutilStatus "alice".toList, attendedStatus, plainTpm⟩ ::
    attendedPhase.run.trace (afterStatus "4242".toList) plainTpm

theorem attempts_accounted_attended :
    let code := returnCode (exec (afterStatus "4242".toList) attendedPhase plainTpm).1
    (Ledger.ofEvents attendedEvents).asked = [.pinPromptRemaining 2] ∧
      (Ledger.ofEvents attendedEvents).Accounted ["try_first_pass".toList] code ∧
      ∀ event ∈ attendedEvents, ∀ prompt, event.op = .converse prompt →
        LeftOn serves_thousand (Ledger.ofEvents attendedEvents) event.before := by
  have run := Prog.runs_run (@afterStatus_attended "4242".toList) attendedPhase.run plainTpm
  simp only [id, List.map_id'] at run
  have status : pinutilStatus attendedStatus = .available 0 3 := pinutilStatus_report _
  have asked : Attended serves_thousand (.pinutilStatus "alice".toList) plainTpm attendedStatus
      plainTpm := by
    refine ⟨rfl, fun used limit told => ?_⟩
    cases status.symm.trans told
    exact ⟨_, _, Tpm.put_shows⟩
  have session : (Pam.authenticateUser .default "alice".toList
      (.fromStrs ["try_first_pass".toList]) sampleEnv.uidOf (some "1111".toList)).run.Runs
      (Attended serves_thousand) plainTpm attendedEvents
      (exec (afterStatus "4242".toList) attendedPhase plainTpm).1
      (exec (afterStatus "4242".toList) attendedPhase plainTpm).2 := .call asked run
  refine ⟨by decide +kernel, ?_⟩
  exact (@attempts_accounted .default ["try_first_pass".toList] (some "1111".toList)).2 1000
    serves_thousand _ _ _ _ _ _ session

end Pinpam
