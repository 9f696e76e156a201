import Pinpam.Core.Deletion
import Pinpam.Core.Storage
import Pinpam.Core.Survival
import Pinpam.Util.Exchange
import Pinpam.Util.Invocations
import Pinpam.Util.Limits
import Pinpam.Util.Machine
import Pinpam.Util.Privileges

/-!
# Changing a PIN

A change verifies the old PIN, deletes its slot and sets up the new one, with no copy of the
old slot. It is all or nothing as long as no command fails once the old slot is gone, if the
TPM and the policy take the new PIN, and a legacy slot is not spelled anew for nothing.
-/

namespace Pinpam
set_option autoImplicit false
open Pinpam.Effect Pinpam.Effect.Fallible

/-! ## All or nothing -/

namespace Account

/-- The account accepts the PIN, with the limit. -/
def Retains (p : Pin) (limit : UInt32) (a : Account) : Prop :=
  ∃ c, a.Accepts p c ∧ c.pinLimit = limit

/-- The slot still has the value `x`, and the account accepts the PIN as it did. -/
structure Stays (p : Pin) (x : Auth) (limit : UInt32) (a : Account) : Prop where
  retains : a.Retains p limit
  slot : ∃ c, a.slot = .written x c

end Account

/-- The new PIN of a change: root enters it first, the user after the current one. -/
def Env.newPin (env : Env) (s : Stdin) : PinResult Pin :=
  if env.uid = 0 then (s.confirmedPin env).1 else ((s.promptPin env.policy).2.confirmedPin env).1

/-- The user enters a PIN that the account accepts. -/
def Env.Presents (env : Env) (acc : Account) (s : Stdin) (current : Pin) : Prop :=
  env.uid ≠ 0 ∧ (s.promptPin env.policy).1 = .ok current ∧ ∃ c, acc.Accepts current c

/-- The current PIN is not asked for, or is accepted. -/
def Env.Passes (env : Env) (acc : Account) (s : Stdin) : Prop :=
  env.uid = 0 ∨ ∃ current, env.Presents acc s current

/-- What a change of the PIN `p` promises: after an `Ok` the new PIN is accepted and `p` is
not, and after an error, if the current PIN passed, `p` is, with its limit. -/
structure Account.Exchanges (env : Env) (p : Pin) (limit : UInt32) (acc : Account) (s : Stdin)
    (r : PinResult Unit) (a : Account) : Prop where
  accepts : r = .ok () → ∃ new c, env.newPin s = .ok new ∧ a.Accepts new c
  rejects : r = .ok () → ∀ new, env.newPin s = .ok new → p.str ≠ new.str → ∀ c, ¬ a.Accepts p c
  kept : env.Passes acc s → ∀ e, r = .error e → a.Retains p limit

/-! ## The condition -/

/-- A slot that is made for the PIN under the policy accepts it. -/
structure PinPolicy.Lodges (policy : PinPolicy) (pin : Pin) : Prop where
  taken : Account.refusal (asBytes pin.str) .absent = none
  positive : 0 < policy.maxAttempts.toNat
  low : policy.maxAttempts.toNat < 2 ^ 31

/-- On a slot made for `q` the TPM takes `p` for it. -/
def Pin.Means (p q : Pin) : Prop := p.auth = q.auth ∧ (asBytes p.str).length ≤ authMaxSize

/-- What the input of a change has to meet. The TPM and the policy take the new PIN, and the old
one is told from it. They take a current PIN that spells a legacy slot anew. If no new PIN is
entered after that, the old one means the current one, and the limit is that of the policy. -/
structure Env.Sound (env : Env) (p : Pin) (limit : UInt32) (acc : Account) (s : Stdin) : Prop where
  new : env.Passes acc s → ∀ new, env.newPin s = .ok new →
    env.policy.Lodges new ∧ (p.Means new → p.str = new.str)
  current : ∀ current, env.Presents acc s current → Respelled current acc →
    env.policy.Lodges current
  given_up : ∀ current, env.Presents acc s current → ∀ e, env.newPin s = .error e →
    p.Means current ∧ (Respelled current acc → env.policy.maxAttempts = limit)

/-- The old PIN is in force, on its old slot. -/
def Tpm.InForce {uid : UInt32} (serves : Serves uid) (p : Pin) (x : Auth) (limit : UInt32)
    (t : Tpm) : Prop :=
  ∃ a, t.Shows serves a ∧ a.Stays p x limit

theorem Account.Stays.present {p : Pin} {x : Auth} {limit : UInt32} {a : Account}
    (stays : a.Stays p x limit) : a.slot ≠ .absent := by
  obtain ⟨c, slot⟩ := stays.slot
  rw [slot]
  exact SlotState.noConfusion

theorem Tpm.InForce.stays {uid limit : UInt32} {serves : Serves uid} {p : Pin} {x : Auth} {t : Tpm}
    {a : Account} (may : Tpm.InForce serves p x limit (t.put serves a)) : a.Stays p x limit := by
  obtain ⟨a', shows_, stays⟩ := may
  rwa [Tpm.put_shows.unique shows_]

/-- The old PIN is in force, or the current one does not pass. -/
def Env.Holds (env : Env) (acc : Account) (s : Stdin) {uid : UInt32} (serves : Serves uid) (p : Pin)
    (x : Auth) (limit : UInt32) (t : Tpm) : Prop :=
  env.Passes acc s → Tpm.InForce serves p x limit t

/-- A call of the terminal fails. -/
def HostCmd.Fails : (f : HostCmd) → Answer f → Prop
  | .flush, r => ∃ err, r = .error err
  | .echo _, r => ∃ err, r = .error err
  | .readLine, r => ∃ err, r = .error err
  | _, _ => False

/-- The process on a given input. The terminal fails calls where `P` holds, and the TPM fails
commands as long as it has held all along. -/
def troubled (ops : KeyOps) (P : Tpm → Prop) : Behaviour UtilCmd ((Tpm × Prop) × Stdin)
  | .inl e, z, r, z' => Latched Tpm.exec P e z.1 r z'.1 ∧ z'.2 = z.2
  | .inr f, z, r, z' => z'.1 = z.1 ∧
      ((Stdin.handler ops).graph f z.2 r z'.2 ∨ P z.1.1 ∧ z'.2 = z.2 ∧ f.Fails r)

section Change

variable {uid limit : UInt32} {serves : Serves uid} {t : Tpm} {p q new : Pin} {x : Auth}
  {acc a b : Account} {c c' : PinCounters} {m : PinManager} {policy : PinPolicy}

/-! ## Slots that are made -/

theorem PinPolicy.Lodges.accepts (lodges : policy.Lodges q) :
    Account.Accepts q ⟨.written q.auth ⟨0, policy.maxAttempts⟩, .version PIN_VERSION_CURRENT⟩
      ⟨0, policy.maxAttempts⟩ :=
  .current rfl (fresh_opens_iff.2 ⟨lodges.positive, lodges.low⟩) (refusal_eq_none.1 lodges.taken).1

/-- A slot that was made accepts the PINs with its value, if the policy left it room. -/
theorem made_accepts (accepts : Account.Accepts p
    ⟨.written q.auth ⟨0, limit⟩, .version PIN_VERSION_CURRENT⟩ c) :
    p.Means q ∧ c.pinLimit = limit := by
  obtain ⟨-, opens, short⟩ | ⟨legacy, -, -⟩ := accepts
  · obtain ⟨value, rfl⟩ := SlotState.written.inj opens.written
    exact ⟨⟨value.symm, short⟩, rfl⟩
  · cases legacy

theorem Account.Accepts.opens (accepts : acc.Accepts p c) : ∃ x, acc.slot.Opens x c := by
  obtain ⟨-, opens, -⟩ | ⟨-, opens, -⟩ := accepts
  · exact ⟨_, opens⟩
  · exact ⟨_, opens⟩

theorem Account.Accepts.present (accepts : acc.Accepts p c) : acc.slot ≠ .absent := by
  obtain ⟨x, slot, -, -⟩ := accepts.opens
  rw [slot]
  exact SlotState.noConfusion

/-! ## Verifying the current PIN -/

/-- A PIN that is accepted, and still is where the slot is made anew for it. -/
structure Account.Ready (policy : PinPolicy) (q : Pin) (a : Account) : Prop where
  accepts : ∃ c, a.Accepts q c
  lodges : Respelled q a → policy.Lodges q

/-- A legacy slot that is tagged for the spelling it holds. -/
theorem canonical_accepts (canonical : normalizeLegacyPin q.str = q.str)
    (legacy : a.tag.read = none) (opens : a.slot.Opens q.legacyAuth c)
    (short : (asBytes (normalizeLegacyPin q.str)).length ≤ authMaxSize) :
    Account.Accepts q ⟨.written q.legacyAuth (c.after true), .version PIN_VERSION_CURRENT⟩
      (c.after true) := by
  have tagged := accepts_tagged canonical legacy opens short .written
  rwa [opens.written, compared_hit opens.unlocked] at tagged

/-- What a verification of such a PIN leaves, if no command fails. -/
theorem Account.Ready.verified (ready : a.Ready policy q) :
    (∃ c, (a.verifyPin uid q policy.maxAttempts).2.Accepts q c) ∧
      (a.verifyPin uid q policy.maxAttempts).2.tag.read ≠ none := by
  obtain ⟨c, accepts⟩ := ready.accepts
  obtain ⟨tag, opens, short⟩ | ⟨tag, opens, short⟩ := accepts
  · rw [verifyPin_current tag, opens.exact short]
    refine ⟨⟨c.after true, .current tag opens.again short⟩, ?_⟩
    rw [show a.tag.read = _ from tag]
    exact Option.some_ne_none _
  rw [verifyPin_legacy tag opens short]
  by_cases canonical : normalizeLegacyPin q.str = q.str
  · rw [Account.migrateLegacyPinFormat, if_pos canonical]
    exact ⟨⟨_, canonical_accepts canonical tag opens short⟩, Option.some_ne_none _⟩
  · have lodges := ready.lodges ⟨tag, canonical, c, .legacy tag opens short⟩
    rw [migrate_respelled canonical SlotState.noConfusion, setupPin_stored rfl lodges.taken]
    exact ⟨⟨_, lodges.accepts⟩, Option.some_ne_none _⟩

/-- The old PIN stays where the current one is one of its spellings. -/
theorem verified_retains (accepts : acc.Accepts p c) (ready : acc.Ready policy q)
    (means : p.Means q) (limit : Respelled q acc → policy.maxAttempts = c.pinLimit) :
    (acc.verifyPin uid q policy.maxAttempts).2.Retains p c.pinLimit := by
  obtain ⟨same, short⟩ := means
  obtain ⟨c', current⟩ := ready.accepts
  obtain ⟨tag, opens, short'⟩ | ⟨tag, opens, short'⟩ := current
  · obtain ⟨-, opens', -⟩ | ⟨legacy, -, -⟩ := accepts
    · obtain ⟨-, rfl⟩ := SlotState.written.inj (opens.written.symm.trans opens'.written)
      rw [verifyPin_current tag, opens.exact short']
      refine ⟨c'.after true, .current tag ?_ short, rfl⟩
      rw [same]
      exact opens.again
    · rw [tag] at legacy
      cases legacy
  obtain ⟨current, -, -⟩ | ⟨-, opens', normal⟩ := accepts
  · rw [tag] at current
    cases current
  obtain ⟨value, rfl⟩ := SlotState.written.inj (opens.written.symm.trans opens'.written)
  rw [verifyPin_legacy tag opens short']
  by_cases canonical : normalizeLegacyPin q.str = q.str
  · have canonical' : normalizeLegacyPin p.str = p.str := by
      by_contra spelled
      apply Pin.auth_ne_legacyAuth spelled
      rw [same, ← value]
      exact (Pin.legacyAuth_canonical canonical).symm
    rw [Account.migrateLegacyPinFormat, if_pos canonical, value]
    exact ⟨_, canonical_accepts canonical' tag opens' normal, rfl⟩
  · have respelled : Respelled q acc := ⟨tag, canonical, _, .legacy tag opens short'⟩
    have lodges := ready.lodges respelled
    rw [migrate_respelled canonical SlotState.noConfusion, setupPin_stored rfl lodges.taken]
    refine ⟨⟨0, policy.maxAttempts⟩, .current rfl ?_ short, limit respelled⟩
    rw [same]
    exact fresh_opens_iff.2 ⟨lodges.positive, lodges.low⟩

/-- The verification found the value of the slot. -/
theorem Account.Migrates.ready (migrates : Account.Migrates q policy.maxAttempts
    { a with slot := a.slot.compared q.legacyAuth } b) (legacy : a.tag.read = none)
    (opens : a.slot.Opens q.legacyAuth c)
    (short : (asBytes (normalizeLegacyPin q.str)).length ≤ authMaxSize)
    (lodges : Respelled q a → policy.Lodges q) (slot : ∃ c, b.slot = .written q.legacyAuth c) :
    b.Ready policy q := by
  have again : (a.slot.compared q.legacyAuth).Opens q.legacyAuth (c.after true) := by
    rw [opens.written, compared_hit opens.unlocked]
    exact opens.again
  cases migrates with
  | start =>
    refine ⟨⟨_, .legacy legacy again short⟩, fun ⟨_, spelled, _⟩ => ?_⟩
    exact lodges ⟨legacy, spelled, c, .legacy legacy opens short⟩
  | tagged canonical becomes =>
    exact ⟨⟨_, accepts_tagged canonical legacy opens short becomes⟩,
      fun ⟨_, spelled, _⟩ => absurd canonical spelled⟩
  | replaced spelled _ _ sets =>
    obtain ⟨c', slot⟩ := slot
    have other := Pin.auth_ne_legacyAuth spelled
    cases sets with
    | start => cases slot
    | defined => cases slot
    | stored => exact absurd (SlotState.written.inj slot).1 other
    | rolledBack => cases slot

/-- The value of the slot is the one that a legacy slot gives the PIN. -/
def Account.Legacy (x : Auth) (q : Pin) (a : Account) : Prop := a.tag.read = none → x = q.legacyAuth

/-- A verification of an accepted PIN, where commands fail only while the old one is in force:
it ends as if none had failed, or the old slot stays. -/
theorem verifyPin_stays (ready : a.Ready m.policy q) (legacy : a.Legacy x q) :
    wpx (Faulty Tpm.exec (Tpm.InForce serves p x limit)) (fun _ => True) (m.verifyPin uid q)
      (fun r t' => ∃ b, t' = t.put serves b ∧
        ((∃ data, r = .ok (.success data)) ∧ b = (a.verifyPin uid q m.policy.maxAttempts).2 ∨
          b.Stays p x limit ∧ ((∃ e, r = .error e) ∨ (∃ data, r = .ok (.success data)) ∧
            b.Ready m.policy q ∧ b.Legacy x q)))
      (t.put serves a) := by
  obtain ⟨c, accepts⟩ := ready.accepts
  have success : (a.verifyPin uid q m.policy.maxAttempts).1 = .ok (.success (c.after true).data) :=
    accepts.success
  -- a slot that was made anew and rolled back does not have the old value
  have stopped : ∀ {b b'}, a.Verifies uid q m.policy.maxAttempts b → b.StopsAt q b' →
      Tpm.InForce serves p x limit (t.put serves b') → b' = b := by
    rintro b b' verifies (same | ⟨absent, c', slot'⟩) may
    · exact same
    obtain ⟨c'', slot''⟩ := may.stays.slot
    obtain ⟨value, -⟩ := SlotState.written.inj (slot'.symm.trans slot'')
    obtain ⟨y, slot, -, -⟩ := accepts.opens
    by_cases keeps : Respelled q a
    · obtain ⟨tag, spelled, -⟩ := keeps
      exact absurd (value.trans (legacy tag)) (Pin.auth_ne_legacyAuth spelled)
    · obtain ⟨c', written⟩ := verifies_written keeps slot verifies
      rw [absent] at written
      cases written
  apply wpx_verifyPin
  · exact fun _ _ => trivial
  · exact ⟨_, rfl, .inl ⟨⟨_, success⟩, rfl⟩⟩
  · intro b b' verifies _ how may e
    obtain rfl := stopped verifies how may
    exact ⟨_, rfl, .inr ⟨may.stays, .inl ⟨e, rfl⟩⟩⟩
  · intro data b b' tag hit migrates _ how may
    obtain rfl := stopped (.migrates tag hit migrates) how may
    obtain ⟨short, c, slot, unlocked, low, -⟩ := exact_success hit
    have slot' := may.stays.slot
    rw [legacy tag] at slot'
    refine ⟨_, rfl, .inr ⟨may.stays, .inr ⟨⟨data, rfl⟩, ?_, fun _ => legacy tag⟩⟩⟩
    exact migrates.ready tag ⟨slot, unlocked, low⟩ short ready.lodges slot'
  · intro invalid _
    rw [success] at invalid
    cases invalid

/-! ## Deleting its slot -/

theorem deletePinAdmin_stays (present : a.slot ≠ .absent) :
    wpx (Faulty Tpm.exec (Tpm.InForce serves p x limit)) (fun _ => True) (deletePinAdmin uid)
      (fun r t' => ∃ b, t' = t.put serves b ∧ (r = .ok () ∧ b.slot = .absent ∨
        b.Stays p x limit ∧ ∃ e, r = .error e)) (t.put serves a) := by
  apply wpx_deletePinAdmin trivial
  · exact fun _ _ _ => trivial
  · exact fun absent => absurd absent present
  · exact fun _ => ⟨_, rfl, .inl ⟨rfl, rfl⟩⟩
  · exact fun _ _ => ⟨_, rfl, .inl ⟨rfl, rfl⟩⟩
  · exact fun may _ => ⟨_, rfl, .inr ⟨may.stays, _, rfl⟩⟩
  · intro _ may _
    obtain ⟨c, slot⟩ := may.stays.slot
    cases slot

theorem deletePinWithAuth_stays (ready : a.Ready m.policy q) (legacy : a.Legacy x q) :
    wpx (Faulty Tpm.exec (Tpm.InForce serves p x limit)) (fun _ => True) (m.deletePinWithAuth uid q)
      (fun r t' => ∃ b, t' = t.put serves b ∧ (r = .ok .success ∧ b.slot = .absent ∨
        b.Stays p x limit ∧ ∃ e, r = .error e)) (t.put serves a) := by
  have delete : ∀ {b : Account}, b.slot ≠ .absent →
      wpx (Faulty Tpm.exec (Tpm.InForce serves p x limit)) (fun _ => True)
        (do deletePinAdmin uid; pure DeleteResult.success)
        (fun r t' => ∃ b, t' = t.put serves b ∧ (r = .ok .success ∧ b.slot = .absent ∨
          b.Stays p x limit ∧ ∃ e, r = .error e)) (t.put serves b) := by
    intro b present
    apply wpx_next (wpx_mono (deletePinAdmin_stays present) _)
    rintro _ _ - ⟨d, rfl, ⟨rfl, absent⟩ | ⟨stays, e, rfl⟩⟩
    · exact ⟨trivial, d, rfl, .inl ⟨rfl, absent⟩⟩
    · exact ⟨d, rfl, .inr ⟨stays, e, rfl⟩⟩
  unfold PinManager.deletePinWithAuth
  apply wpx_next (wpx_mono (verifyPin_stays ready legacy) _)
  rintro _ _ - ⟨b, rfl, ⟨⟨data, rfl⟩, rfl⟩ | ⟨stays, ⟨e, rfl⟩ | ⟨⟨data, rfl⟩, again, -⟩⟩⟩
  · obtain ⟨⟨c, accepts⟩, -⟩ := ready.verified
    exact delete accepts.present
  · exact ⟨b, rfl, .inr ⟨stays, e, rfl⟩⟩
  · obtain ⟨c, accepts⟩ := again.accepts
    exact delete accepts.present

/-! ## The process -/

variable {ops : KeyOps} {env : Env} {name : Str} {P : Tpm → Prop} {s s' : Stdin} {live : Prop}
  {ε β : Type}

/-- The process whose terminal fails nothing is one of these. -/
theorem troubled_calm {f : UtilCmd} {z z' : (Tpm × Prop) × Stdin} {r : Answer f}
    (act : (Latched Tpm.exec P).sum (Stdin.handler ops).graph f z r z') :
    troubled ops P f z r z' := by
  cases f with
  | inl e => exact act
  | inr f => exact ⟨act.2, .inl act.1⟩

/-- An operation of the manager only meets the TPM. -/
theorem wpx_manage_troubled {y : PinM β} {Q : PinResult β → (Tpm × Prop) × Stdin → Prop}
    {z : Tpm × Prop}
    (body : wpx (Latched Tpm.exec P) (fun _ => True) y (fun r z => Q r (z, s)) z) :
    wpx (troubled ops P) (fun _ => True) (manage y) Q (z, s) := by
  have injected : wpx ((Latched Tpm.exec P).sum (Stdin.handler ops).graph) (fun _ => True)
      (manage y) Q (z, s) := wpx_inl.2 body
  apply Prog.wp_left.2
  exact Prog.wp_behaviour (Prog.wp_left.1 injected) (fun _ _ _ _ act => act) fun _ _ => trivial

/-- A call of the host is answered as the input says, or fails. -/
theorem wpx_given {f : HostCmd} {read : Answer f → Except ε β}
    {Q : Except ε β → (Tpm × Prop) × Stdin → Prop} {z : Tpm × Prop}
    (post : Q (read (Stdin.handler ops f s).1) (z, (Stdin.handler ops f s).2))
    (failed : P z.1 → ∀ r, f.Fails r → Q (read r) (z, s)) :
    wpx (troubled ops P) (fun _ => True) (inr f read) Q (z, s) := by
  refine ⟨trivial, ?_⟩
  rintro r ⟨_, s'⟩ ⟨rfl, answered | ⟨may, rfl, fails⟩⟩
  · obtain rfl : (Stdin.handler ops f s).1 = r := congrArg Prod.fst answered
    obtain rfl : (Stdin.handler ops f s).2 = s' := congrArg Prod.snd answered
    exact ⟨trivial, post⟩
  · exact ⟨trivial, failed may r fails⟩

/-- What is told never fails. -/
theorem wpx_tell_given {text : Text} {Q : Except ε Unit → (Tpm × Prop) × Stdin → Prop}
    {z : Tpm × Prop} (post : Q (.ok ()) (z, s)) :
    wpx (troubled ops P) (fun _ => True) (tell text) Q (z, s) :=
  wpx_given post fun _ _ no => no.elim

/-- An operation of the manager, on a TPM that has failed commands only while `P` held. -/
theorem wpx_troubled {y : PinM β} {R : PinResult β → Tpm → Prop}
    {Q : PinResult β → (Tpm × Prop) × Stdin → Prop}
    (body : wpx (Faulty Tpm.exec P) (fun _ => True) y R t) (holds : live → P t)
    (next : ∀ r t' live', (live' → P t') → R r t' → Q r ((t', live'), s)) :
    wpx (troubled ops P) (fun _ => True) (manage y) Q ((t, live), s) := by
  apply wpx_manage_troubled
  apply wpx_mono (Prog.wp_latched body holds)
  rintro r ⟨t', live'⟩ - ⟨post, holds'⟩
  exact next r t' live' holds' post

/-- The same once `P` has ceased to hold. -/
theorem wpx_calmed {y : PinM β} {Q : PinResult β → (Tpm × Prop) × Stdin → Prop}
    (body : wpx (Faulty Tpm.exec fun _ => False) (fun _ => True) y
      (fun r t' => ∀ live', Q r ((t', live'), s)) t) (dead : ¬ live) :
    wpx (troubled ops P) (fun _ => True) (manage y) Q ((t, live), s) := by
  apply wpx_manage_troubled
  apply wpx_mono (Prog.wp_unlatched body dead)
  rintro r ⟨t', live'⟩ - ⟨post, -⟩
  exact post live'

section Prompts

variable {z : Tpm × Prop}

theorem wpx_readLine_given {Q : PinResult Str → (Tpm × Prop) × Stdin → Prop}
    (post : Q s.readLine.1 (z, s.readLine.2)) (failed : P z.1 → ∀ e, Q (.error e) (z, s)) :
    wpx (troubled ops P) (fun _ => True) readLine Q (z, s) := by
  apply wpx_given
  · obtain ⟨input, console⟩ := s
    match input with
    | [] => exact post
    | .ok line :: rest => exact post
    | .error err :: rest => exact post
  · rintro may _ ⟨err, rfl⟩
    exact failed may _

theorem wpx_flush_given {Q : PinResult Unit → (Tpm × Prop) × Stdin → Prop}
    (post : Q (.ok ()) (z, s)) (failed : P z.1 → ∀ e, Q (.error e) (z, s)) :
    wpx (troubled ops P) (fun _ => True) flush Q (z, s) := by
  apply wpx_given post
  rintro may _ ⟨err, rfl⟩
  exact failed may _

theorem wpx_echo_given {on : Bool} {Q : PinResult Unit → (Tpm × Prop) × Stdin → Prop}
    (post : Q (.ok ()) (z, s)) (failed : P z.1 → ∀ e, Q (.error e) (z, s)) :
    wpx (troubled ops P) (fun _ => True) (echo on) Q (z, s) := by
  apply wpx_given post
  rintro may _ ⟨err, rfl⟩
  exact failed may _

theorem wpx_promptPin_given {prompt : Text} {attempts : Option (UInt32 × UInt32)}
    {Q : PinResult Pin → (Tpm × Prop) × Stdin → Prop}
    (post : Q (s.promptPin env.policy).1 (z, (s.promptPin env.policy).2))
    (failed : P z.1 → ∀ e s', Q (.error e) (z, s')) :
    wpx (troubled ops P) (fun _ => True) (Util.promptPin env prompt attempts) Q (z, s) := by
  unfold Util.promptPin
  unfold Stdin.promptPin at post
  split
  · refine wpx_next (wpx_readLine_given ?_ fun may e => failed may e s)
    cases read : s.readLine.1 with
    | error e =>
      rw [read] at post
      exact post
    | ok line =>
      rw [read] at post
      exact ⟨trivial, post⟩
  apply wpx_next (wpx_tell_given _)
  refine wpx_next (wpx_flush_given ?_ fun may e => failed may e s)
  refine wpx_next (wpx_echo_given ?_ fun may e => failed may e s)
  -- a read that fails is an error too, once the echo is back
  refine wpx_next_attempt (wpx_readLine_given ?_ fun may e => ?_)
  · refine wpx_next (wpx_echo_given ?_ fun may e => failed may e _)
    apply wpx_next (wpx_tell_given _)
    cases read : s.readLine.1 with
    | error e =>
      rw [read] at post
      exact wpx_next ⟨trivial, post⟩
    | ok line =>
      rw [read] at post
      exact wpx_next ⟨trivial, trivial, post⟩
  · refine wpx_next (wpx_echo_given ?_ fun may e => failed may e s)
    apply wpx_next (wpx_tell_given _)
    exact wpx_next ⟨trivial, failed may e s⟩

theorem wpx_confirmedPin_given {prompt again : Text}
    {Q : PinResult Pin → (Tpm × Prop) × Stdin → Prop}
    (post : Q (s.confirmedPin env).1 (z, (s.confirmedPin env).2))
    (failed : P z.1 → ∀ e s', Q (.error e) (z, s')) :
    wpx (troubled ops P) (fun _ => True) (Util.confirmedPin env prompt again) Q (z, s) := by
  unfold Util.confirmedPin
  unfold Stdin.confirmedPin at post
  refine wpx_next (wpx_promptPin_given ?_ failed)
  rcases first : s.promptPin env.policy with ⟨e | pin, s'⟩
  · rw [first] at post
    exact post
  rw [first] at post
  dsimp only at post ⊢
  split
  next machine =>
    rw [if_pos machine] at post
    exact ⟨trivial, post⟩
  next human =>
    rw [if_neg human] at post
    refine wpx_next (wpx_promptPin_given ?_ failed)
    rcases second : s'.promptPin env.policy with ⟨e | confirm, s''⟩
    · rw [second] at post
      exact post
    rw [second] at post
    dsimp only at post ⊢
    split
    next differs =>
      rw [if_pos differs] at post
      exact ⟨trivial, post⟩
    next same =>
      rw [if_neg same] at post
      exact ⟨trivial, post⟩

theorem wpx_human_given {text : Text} {Q : PinResult Unit → (Tpm × Prop) × Stdin → Prop}
    (post : Q (.ok ()) (z, s)) :
    wpx (troubled ops P) (fun _ => True) (Util.human env text) Q (z, s) := by
  unfold Util.human
  split
  · exact ⟨trivial, post⟩
  · exact wpx_tell_given post

end Prompts

/-! ## The command -/

/-- What a change with this input leaves. -/
def Exchanged (env : Env) (serves : Serves uid) (t : Tpm) (acc : Account) (p : Pin) (limit : UInt32)
    (s : Stdin) (r : PinResult Unit) (z : (Tpm × Prop) × Stdin) : Prop :=
  ∃ a, z.1.1 = t.put serves a ∧ acc.Exchanges env p limit s r a

/-- An error while the old PIN is accepted as it was. -/
theorem exchanged_kept {e : PinError} (retains : a.Retains p limit) :
    Exchanged env serves t acc p limit s (.error e) ((t.put serves a, live), s') :=
  ⟨a, rfl, nofun, nofun, fun _ _ _ => retains⟩

/-- An error while the condition on the failing commands holds. -/
theorem exchanged_held {e : PinError} (holds : env.Holds acc s serves p x limit (t.put serves a)) :
    Exchanged env serves t acc p limit s (.error e) ((t.put serves a, live), s') :=
  ⟨a, rfl, nofun, nofun, fun passes _ _ => (holds passes).stays.retains⟩

/-- An error before the current PIN passed. -/
theorem exchanged_refused {e : PinError} (unknown : ¬ env.Passes acc s) :
    Exchanged env serves t acc p limit s (.error e) ((t.put serves a, live), s') :=
  ⟨a, rfl, nofun, nofun, fun passes => absurd passes unknown⟩

/-- The new PIN took the place of the old one. -/
theorem exchanges_renewed (entered : env.newPin s = .ok new) (lodges : env.policy.Lodges new)
    (told : p.Means new → p.str = new.str) :
    acc.Exchanges env p limit s (.ok ())
      ⟨.written new.auth ⟨0, env.policy.maxAttempts⟩, .version PIN_VERSION_CURRENT⟩ where
  accepts _ := ⟨new, _, entered, lodges.accepts⟩
  rejects _ := by
    intro new' entered' other c accepts
    rw [entered] at entered'
    cases entered'
    exact other (told (made_accepts accepts).1)
  kept _ _ := nofun

/-- A setup in place of the old slot. -/
theorem exchanged_set (sound : env.Sound p limit acc s) (passes : env.Passes acc s)
    (entered : env.newPin s = .ok new) (absent : a.slot = .absent) (dead : ¬ live) {text : Text} :
    wpx (troubled ops P) (fun _ => True)
      (do manage (env.manager.setupPin uid new); Util.human env text)
      (Exchanged env serves t acc p limit s) ((t.put serves a, live), s') := by
  obtain ⟨lodges, told⟩ := sound.new passes new entered
  have set : a.setupPin uid new env.policy.maxAttempts = (.ok (),
      ⟨.written new.auth ⟨0, env.policy.maxAttempts⟩, .version PIN_VERSION_CURRENT⟩) :=
    setupPin_stored (by rw [absent]; rfl) (absent ▸ lodges.taken)
  apply wpx_next (wpx_calmed _ dead)
  apply wpx_setupPin
  · exact fun _ _ => trivial
  · rw [manager_limit, set]
    exact fun live => wpx_human_given ⟨_, rfl, exchanges_renewed entered lodges told⟩
  · exact fun _ _ _ _ _ no => no.elim

theorem changeAnyPin_exchanges (root : env.uid = 0) (accepts : acc.Accepts p c)
    (slot : acc.slot = .written x c) (sound : env.Sound p c.pinLimit acc s) :
    wpx (troubled ops (Tpm.InForce serves p x c.pinLimit)) (fun _ => True)
      (Util.changeAnyPin env env.manager uid name) (Exchanged env serves t acc p c.pinLimit s)
      ((t.put serves acc, live), s) := by
  have here : acc.Stays p x c.pinLimit := ⟨⟨c, accepts, rfl⟩, c, slot⟩
  have inForce : Tpm.InForce serves p x c.pinLimit (t.put serves acc) := ⟨acc, Tpm.put_shows, here⟩
  unfold Util.changeAnyPin
  refine wpx_next (wpx_confirmedPin_given ?_ fun may _ _ => exchanged_kept may.stays.retains)
  cases entered : (s.confirmedPin env).1 with
  | error e => exact exchanged_kept here.retains
  | ok new =>
    have entered : env.newPin s = .ok new := by rw [Env.newPin, if_pos root, entered]
    apply wpx_next (wpx_troubled (deletePinAdmin_stays accepts.present) (fun _ => inForce) _)
    rintro _ _ live holds ⟨b, rfl, ⟨rfl, absent⟩ | ⟨stays, e, rfl⟩⟩
    · refine exchanged_set sound (.inl root) entered absent fun still => ?_
      exact (holds still).stays.present absent
    · exact exchanged_kept stays.retains

/-- The operation gives `v` and changes nothing, or fails where `P` holds. -/
abbrev Asks (P : Tpm → Prop) (t : Tpm) (y : PinM β) (v : β) : Prop :=
  wpx (Faulty Tpm.exec P) (fun _ => True) y
    (fun r t' => t' = t ∧ (r = .ok v ∨ P t ∧ ∃ e, r = .error e)) t

theorem restartContext_asks : Asks P t m.restartContext () := by
  apply wpx_ofTss (wpx_tpm rfl trivial trivial _ _)
  · exact ⟨rfl, .inl rfl⟩
  · exact fun may f => ⟨rfl, .inr ⟨may, _, rfl⟩⟩

theorem new_asks : Asks P t (PinManager.new policy) ⟨policy, policy.tctiSpec⟩ := by
  apply wpx_next (wpx_ofTss (wpx_tpm rfl trivial trivial _ _))
  · exact ⟨trivial, rfl, .inl rfl⟩
  · exact fun may f => ⟨rfl, .inr ⟨may, _, rfl⟩⟩

theorem getPinSlot_asks : Asks P (t.put serves a) (getPinSlot uid) a.slot.data := by
  apply wpx_getPinSlot trivial
  · exact ⟨rfl, .inl rfl⟩
  · exact fun may f => ⟨rfl, .inr ⟨may, _, rfl⟩⟩

theorem wpx_asks {y : PinM β} {v : β} {Q : PinResult β → (Tpm × Prop) × Stdin → Prop}
    (asks : Asks P t y v) (holds : live → P t)
    (done : ∀ live', (live' → P t) → Q (.ok v) ((t, live'), s))
    (failed : ∀ e live', P t → Q (.error e) ((t, live'), s)) :
    wpx (troubled ops P) (fun _ => True) (manage y) Q ((t, live), s) := by
  apply wpx_troubled asks holds
  rintro _ _ live' holds' ⟨rfl, rfl | ⟨may, e, rfl⟩⟩
  · exact done live' holds'
  · exact failed e live' may

/-- What a user does once the current PIN passed. -/
theorem replace_exchanges {current : Pin} (sound : env.Sound p limit acc s)
    (presents : env.Presents acc s current) (ready : a.Ready env.policy current)
    (legacy : a.Legacy x current) (retains : ∀ e, env.newPin s = .error e → a.Retains p limit)
    (holds : live → Tpm.InForce serves p x limit (t.put serves a)) :
    wpx (troubled ops (Tpm.InForce serves p x limit)) (fun _ => True) (do
        manage env.manager.restartContext
        let newPin ← Util.confirmedPin env .newPin .confirm
        match ← manage (env.manager.deletePinWithAuth uid current) with
        | .success => do
          manage (env.manager.setupPin uid newPin)
          Util.human env (.pinChangedForUser name)
        | result => throw (.cannotDeletePin result))
      (Exchanged env serves t acc p limit s)
      ((t.put serves a, live), (s.promptPin env.policy).2) := by
  apply wpx_next (wpx_asks restartContext_asks holds _ _)
  · intro live' holds'
    refine wpx_next (wpx_confirmedPin_given ?_ fun may _ _ => exchanged_kept may.stays.retains)
    cases entered : ((s.promptPin env.policy).2.confirmedPin env).1 with
    | error e => exact exchanged_kept (retains e (by rw [Env.newPin, if_neg presents.1, entered]))
    | ok new =>
      have entered : env.newPin s = .ok new := by rw [Env.newPin, if_neg presents.1, entered]
      apply wpx_next (wpx_troubled (deletePinWithAuth_stays ready legacy) holds' _)
      rintro _ _ live'' holds'' ⟨b, rfl, ⟨rfl, absent⟩ | ⟨stays, e, rfl⟩⟩
      · refine exchanged_set sound (.inr ⟨current, presents⟩) entered absent fun still => ?_
        exact (holds'' still).stays.present absent
      · exact exchanged_kept stays.retains
  · exact fun _ _ may => exchanged_kept may.stays.retains

theorem Account.Accepts.legacy_value (accepts : acc.Accepts q c) {c' : PinCounters}
    (slot : acc.slot = .written x c') : acc.Legacy x q := by
  intro legacy
  obtain ⟨tag, -, -⟩ | ⟨-, opens, -⟩ := accepts
  · rw [legacy] at tag
    cases tag
  · exact (SlotState.written.inj (slot.symm.trans opens.written)).1

theorem Env.Passes.holds (passes : env.Passes acc s) :
    env.Holds acc s serves p x limit = Tpm.InForce serves p x limit :=
  funext fun _ => propext ⟨fun holds => holds passes, fun inForce _ => inForce⟩

theorem changeOwnPin_exchanges {info : AttemptInfo} (user : env.uid ≠ 0) (accepts : acc.Accepts p c)
    (slot : acc.slot = .written x c) (sound : env.Sound p c.pinLimit acc s) :
    wpx (troubled ops (env.Holds acc s serves p x c.pinLimit)) (fun _ => True)
      (Util.changeOwnPin env env.manager uid info name) (Exchanged env serves t acc p c.pinLimit s)
      ((t.put serves acc, live), s) := by
  have here : acc.Stays p x c.pinLimit := ⟨⟨c, accepts, rfl⟩, c, slot⟩
  have inForce : Tpm.InForce serves p x c.pinLimit (t.put serves acc) := ⟨acc, Tpm.put_shows, here⟩
  unfold Util.changeOwnPin
  split
  · exact ⟨trivial, exchanged_kept here.retains⟩
  refine wpx_next (wpx_promptPin_given ?_ fun may _ _ => exchanged_held may)
  cases prompted : (s.promptPin env.policy).1 with
  | error e => exact exchanged_kept here.retains
  | ok current =>
    by_cases accepted : ∃ c, acc.Accepts current c
    · have presents : env.Presents acc s current := ⟨user, prompted, accepted⟩
      have ready : acc.Ready env.policy current := ⟨accepted, sound.current current presents⟩
      have legacy : acc.Legacy x current := by
        obtain ⟨c', accepts'⟩ := accepted
        exact accepts'.legacy_value slot
      rw [Env.Passes.holds (.inr ⟨current, presents⟩)]
      have verified := @verifyPin_stays uid c.pinLimit serves t p current x acc env.manager ready legacy
      apply wpx_next (wpx_troubled verified (fun _ => inForce) _)
      rintro _ _ live holds ⟨b, rfl, ⟨⟨data, rfl⟩, rfl⟩ | ⟨stays, ended⟩⟩
      · obtain ⟨again, tagged⟩ := ready.verified
        refine replace_exchanges sound presents ⟨again, fun respelled => absurd respelled.1 tagged⟩
          (fun untagged => absurd untagged tagged) ?_ holds
        · intro e entered
          obtain ⟨means, limit⟩ := sound.given_up current presents e entered
          exact verified_retains accepts ready means limit
      · obtain ⟨e, rfl⟩ | ⟨⟨data, rfl⟩, again, legacy⟩ := ended
        · exact exchanged_kept stays.retains
        · exact replace_exchanges sound presents again legacy (fun _ _ => stays.retains) holds
    · have unknown : ¬ env.Passes acc s := by
        rintro (root | ⟨current', -, prompted', c, accepts⟩)
        · exact user root
        · rw [prompted] at prompted'
          cases prompted'
          exact accepted ⟨c, accepts⟩
      have misses := wpx_verifyPin_unaccepted (C := fun t' => ∃ b, t' = t.put serves b)
        (P := env.Holds acc s serves p x c.pinLimit) (m := env.manager) accepted fun b _ => ⟨b, rfl⟩
      have body : wpx (Faulty Tpm.exec (env.Holds acc s serves p x c.pinLimit)) (fun _ => True)
          (env.manager.verifyPin uid current)
          (fun r t' => (∃ b, t' = t.put serves b) ∧ ∀ data, r ≠ .ok (.success data))
          (t.put serves acc) :=
        Prog.wp_behaviour (wpx_mono misses fun _ _ left fails => ⟨left, fails⟩)
          (fun _ _ _ _ act => act) fun _ _ => trivial
      apply wpx_next (wpx_troubled body (fun _ passes => absurd passes unknown) _)
      rintro (e | (data | locked | _)) _ live' - ⟨⟨b, rfl⟩, fails⟩
      · exact exchanged_refused unknown
      · exact absurd rfl (fails data)
      · exact ⟨trivial, exchanged_refused unknown⟩
      · exact ⟨trivial, exchanged_refused unknown⟩

/-- A change whose TPM fails commands only while the old PIN is in force. -/
theorem changePin_exchanges (found : env.getUidFromUsername name = .ok uid)
    (caller : env.uid = 0 ∨ env.uid = uid) (accepts : acc.Accepts p c)
    (slot : acc.slot = .written x c) (sound : env.Sound p c.pinLimit acc s) :
    wpx (troubled ops (env.Holds acc s serves p x c.pinLimit)) (fun _ => True)
      (Util.changePin env name) (Exchanged env serves t acc p c.pinLimit s)
      ((t.put serves acc, True), s) := by
  have holds : env.Holds acc s serves p x c.pinLimit (t.put serves acc) :=
    fun _ => ⟨acc, Tpm.put_shows, ⟨c, accepts, rfl⟩, c, slot⟩
  have manages : env.canManagePin uid = true := by simpa [Env.canManagePin] using caller
  unfold Util.changePin
  rw [found, ofResult_ok_bind, if_neg (not_not.2 manages)]
  apply wpx_next (wpx_asks new_asks (fun _ => holds) _ fun _ _ => exchanged_held)
  intro live _
  apply wpx_next (wpx_next (wpx_asks getPinSlot_asks (fun _ => holds) _ fun _ _ => exchanged_held))
  intro live' _
  rw [slot]
  refine ⟨trivial, ?_⟩
  apply wpx_next (wpx_asks restartContext_asks (fun _ => holds) _ fun _ _ => exchanged_held)
  intro live'' _
  dsimp only
  split
  · next user => exact changeOwnPin_exchanges user accepts slot sound
  · next root =>
    rw [Env.Passes.holds (.inl (not_not.1 root))]
    exact changeAnyPin_exchanges (not_not.1 root) accepts slot sound

/-! ## When no command fails -/

/-- What comes after the verification of the current PIN. -/
def Account.replaced (uid : UInt32) (current : Pin) (limit : UInt32) (entered : PinResult Pin)
    (a : Account) : PinResult Unit × Account :=
  match entered with
  | .error e => (.error e, a)
  | .ok new =>
    match a.deletePinWithAuth uid current limit with
    | (.ok .success, a) => a.setupPin uid new limit
    | (.ok result, a) => (.error (.cannotDeletePin result), a)
    | (.error e, a) => (.error e, a)

section Calm

variable (found : env.getUidFromUsername name = .ok uid) (caller : env.uid = 0 ∨ env.uid = uid)
  (accepts : acc.Accepts p c)
include found caller accepts

/-- A change by root that is entered. -/
theorem exec_changePin_any (root : env.uid = 0) (entered : env.newPin s = .ok new) : ∃ s',
    exec (process ops) (Util.changePin env name) (t.put serves acc, s) =
      ((Account.setupPin uid new env.policy.maxAttempts ⟨.absent, .absent⟩).1, t.put serves
        (Account.setupPin uid new env.policy.maxAttempts ⟨.absent, .absent⟩).2, s') := by
  have manages : env.canManagePin uid = true := by simpa [Env.canManagePin] using caller
  have restart : ∀ s, exec (process ops) (manage env.manager.restartContext) (t.put serves acc, s) =
      (.ok (), t.put serves acc, s) := fun _ => rfl
  obtain ⟨x, slot, -, -⟩ := accepts.opens
  rw [Env.newPin, if_pos root] at entered
  unfold Util.changePin
  rw [found, ofResult_ok_bind, if_neg (not_not.2 manages), exec_bind_ok exec_newManager,
    exec_bind_ok exec_getAttemptInfo, slot]
  dsimp only [SlotState.data, Option.map]
  rw [exec_bind_ok (restart s), if_neg (not_not.2 root)]
  unfold Util.changeAnyPin
  rw [exec_bind, exec_confirmed, entered]
  dsimp only
  rw [exec_bind, exec_manage, exec_deletePinAdmin, Account.deletePinAdmin, if_neg accepts.present]
  dsimp only
  rw [exec_bind, exec_manage, exec_setupPin, manager_limit]
  cases (Account.setupPin uid new env.policy.maxAttempts ⟨.absent, .absent⟩).1 with
  | error e => exact ⟨_, rfl⟩
  | ok _ =>
    dsimp only
    rw [exec_human]
    exact ⟨_, rfl⟩

/-- A change by a user whose current PIN passed. -/
theorem exec_changePin_own {current : Pin} (presents : env.Presents acc s current) : ∃ s',
    exec (process ops) (Util.changePin env name) (t.put serves acc, s) =
      (((acc.verifyPin uid current env.policy.maxAttempts).2.replaced uid current
        env.policy.maxAttempts (env.newPin s)).1,
        t.put serves ((acc.verifyPin uid current env.policy.maxAttempts).2.replaced uid current
          env.policy.maxAttempts (env.newPin s)).2, s') := by
  have manages : env.canManagePin uid = true := by simpa [Env.canManagePin] using caller
  have restart : ∀ a s, exec (process ops) (manage env.manager.restartContext) (t.put serves a, s) =
      (.ok (), t.put serves a, s) := fun _ _ => rfl
  obtain ⟨x, slot, unlocked, -⟩ := accepts.opens
  obtain ⟨user, prompted, c', accepted⟩ := presents
  have success : (acc.verifyPin uid current env.policy.maxAttempts).1 =
      .ok (.success (c'.after true).data) := accepted.success
  unfold Util.changePin
  rw [found, ofResult_ok_bind, if_neg (not_not.2 manages), exec_bind_ok exec_newManager,
    exec_bind_ok exec_getAttemptInfo, slot]
  dsimp only [SlotState.data, Option.map]
  rw [exec_bind_ok (restart acc s), if_pos user]
  unfold Util.changeOwnPin
  rw [info_unlocked unlocked, if_neg Bool.false_ne_true, exec_bind, exec_promptPin, prompted]
  dsimp only
  rw [exec_bind, exec_manage, exec_verifyPin, manager_limit, success]
  dsimp only
  rw [exec_bind_ok (restart _ _), exec_bind, exec_confirmed, Env.newPin, if_neg user]
  generalize (acc.verifyPin uid current env.policy.maxAttempts).2 = b
  unfold Account.replaced
  cases ((s.promptPin env.policy).2.confirmedPin env).1 with
  | error e => exact ⟨_, rfl⟩
  | ok new =>
    dsimp only
    rw [exec_bind, exec_manage, exec_deletePinWithAuth, manager_limit]
    rcases b.deletePinWithAuth uid current env.policy.maxAttempts with ⟨e | (_ | locked | _), a⟩
    · exact ⟨_, rfl⟩
    · dsimp only
      rw [exec_bind, exec_manage, exec_setupPin, manager_limit]
      cases (a.setupPin uid new env.policy.maxAttempts).1 with
      | error e => exact ⟨_, rfl⟩
      | ok _ =>
        dsimp only
        rw [exec_human]
        exact ⟨_, rfl⟩
    · exact ⟨_, rfl⟩
    · exact ⟨_, rfl⟩

end Calm

/-! ### What the promise asks of the input -/

/-- No PIN opens the slot. -/
def SlotState.Useless (slot : SlotState) : Prop := ∀ x c, ¬ slot.Opens x c

theorem SlotState.Useless.rejects (useless : a.slot.Useless) : ¬ a.Accepts p c := by
  intro accepts
  obtain ⟨x, opens⟩ := accepts.opens
  exact useless x c opens

theorem SlotState.Useless.compared {slot : SlotState} {y : Auth} (useless : slot.Useless) :
    (slot.compared y).Useless := by
  cases slot with
  | absent => exact useless
  | unwritten => exact useless
  | written x c =>
    by_cases locked : c.locked
    · rwa [compared_locked locked]
    · have high : ¬ c.pinLimit.toNat < 2 ^ 31 := fun low => useless x c ⟨rfl, locked, low⟩
      rintro z c' ⟨written, -, low⟩
      rw [SlotState.compared, if_neg locked] at written
      rw [← (SlotState.written.inj written).2] at low
      exact high low

theorem verifyPinExact_useless {bytes : Bytes} (useless : a.slot.Useless) :
    (a.verifyPinExact uid bytes).2.slot.Useless := by
  rcases @verifyPinExact_visits uid a bytes with same | moved
  · rwa [same]
  · rw [moved]
    exact useless.compared

theorem verifyPin_useless (useless : a.slot.Useless) :
    (a.verifyPin uid q limit).2.slot.Useless := by
  cases tag : a.tag.read with
  | some version =>
    simp only [Account.verifyPin, tag]
    split
    · exact useless
    · exact verifyPinExact_useless useless
  | none =>
    rw [verifyPin_legacy_fails tag]
    · exact verifyPinExact_useless useless
    · intro data hit
      obtain ⟨c, accepts⟩ := accepts_of_hit tag hit
      exact useless.rejects accepts

/-- A change is stuck on such a slot, and leaves one. -/
theorem replaced_useless {entered : PinResult Pin} (useless : a.slot.Useless) :
    (∃ e, (a.replaced uid q limit entered).1 = .error e) ∧
      (a.replaced uid q limit entered).2.slot.Useless := by
  obtain ⟨fails, same⟩ := @deletePinWithAuth_wrong uid limit a q fun c => useless.rejects
  unfold Account.replaced
  cases entered with
  | error e => exact ⟨⟨e, rfl⟩, useless⟩
  | ok new =>
    have left := @verifyPin_useless uid limit q a useless
    rw [← same] at left
    dsimp only
    revert fails left
    rcases a.deletePinWithAuth uid q limit with ⟨e | (_ | locked | _), b⟩
    · exact fun _ left => ⟨⟨e, rfl⟩, left⟩
    · exact fun fails _ => absurd rfl fails
    · exact fun _ left => ⟨⟨_, rfl⟩, left⟩
    · exact fun _ left => ⟨⟨_, rfl⟩, left⟩

/-- A slot that is made for a PIN which does not fit the policy or the TPM. -/
theorem useless_unlodged (unlodged : ¬ policy.Lodges q) :
    (Account.setupPin uid q policy.maxAttempts ⟨.absent, .absent⟩).2.slot.Useless := by
  cases refused : Account.refusal (asBytes q.str) .absent with
  | some err =>
    have left : (Account.setupPin uid q policy.maxAttempts ⟨.absent, .absent⟩).2 =
        ⟨.absent, .absent⟩ := by
      simp [Account.setupPin, SlotState.data, refused]
    rw [left]
    rintro x c ⟨⟨⟩, -, -⟩
  | none =>
    rw [setupPin_stored rfl refused]
    rintro x c ⟨written, unlocked, low⟩
    obtain ⟨-, rfl⟩ := SlotState.written.inj written
    exact unlodged ⟨refused, PinCounters.limit_pos unlocked, low⟩

/-- An accepted PIN deletes its slot. -/
theorem Account.Ready.deletes (ready : a.Ready policy q) :
    a.deletePinWithAuth uid q policy.maxAttempts = (.ok .success, ⟨.absent, .absent⟩) := by
  obtain ⟨c, accepts⟩ := ready.accepts
  obtain ⟨⟨c', again⟩, -⟩ := @Account.Ready.verified uid q a policy ready
  have success : (a.verifyPin uid q policy.maxAttempts).1 = .ok (.success (c.after true).data) :=
    accepts.success
  unfold Account.deletePinWithAuth
  revert success again
  rcases a.verifyPin uid q policy.maxAttempts with ⟨r, b⟩
  rintro again rfl
  dsimp only
  rw [deletePinAdmin_present again.present]
  rfl

/-- Where the new PIN is set up, the promise needs it to become a slot that tells the old one
from it. -/
theorem lodges_of_exchanges (entered : env.newPin s = .ok new) (passes : env.Passes acc s)
    (exchanges : acc.Exchanges env p limit s
      (Account.setupPin uid new env.policy.maxAttempts ⟨.absent, .absent⟩).1
      (Account.setupPin uid new env.policy.maxAttempts ⟨.absent, .absent⟩).2) :
    env.policy.Lodges new ∧ (p.Means new → p.str = new.str) := by
  by_cases lodges : env.policy.Lodges new
  · rw [setupPin_stored rfl lodges.taken] at exchanges
    refine ⟨lodges, fun ⟨same, short⟩ => ?_⟩
    by_contra other
    apply exchanges.rejects rfl new entered other ⟨0, env.policy.maxAttempts⟩
    refine .current rfl ?_ short
    rw [same]
    exact fresh_opens_iff.2 ⟨lodges.positive, lodges.low⟩
  · have useless := @useless_unlodged uid new env.policy lodges
    cases set : (Account.setupPin uid new env.policy.maxAttempts ⟨.absent, .absent⟩).1 with
    | error e =>
      obtain ⟨c, accepts, -⟩ := exchanges.kept passes e set
      exact absurd accepts useless.rejects
    | ok _ =>
      obtain ⟨new', c, -, accepts⟩ := exchanges.accepts set
      exact absurd accepts useless.rejects

/-- A verification after which the old PIN is accepted as it was. -/
theorem means_of_retains (accepts : acc.Accepts p c) (current : acc.Accepts q c')
    (retains : (acc.verifyPin uid q policy.maxAttempts).2.Retains p c.pinLimit) :
    p.Means q ∧ (Respelled q acc → policy.maxAttempts = c.pinLimit) := by
  obtain ⟨tag, opens, short⟩ | ⟨tag, opens, short⟩ := current
  · obtain ⟨-, opens', fits⟩ | ⟨legacy, -, -⟩ := accepts
    · obtain ⟨value, -⟩ := SlotState.written.inj (opens'.written.symm.trans opens.written)
      refine ⟨⟨value, fits⟩, fun respelled => ?_⟩
      rw [respelled.1] at tag
      cases tag
    · rw [tag] at legacy
      cases legacy
  obtain ⟨c'', kept, same⟩ := retains
  rw [verifyPin_legacy tag opens short] at kept
  by_cases canonical : normalizeLegacyPin q.str = q.str
  · rw [Account.migrateLegacyPinFormat, if_pos canonical] at kept
    refine ⟨?_, fun respelled => absurd canonical respelled.2.1⟩
    obtain ⟨-, opens', fits⟩ | ⟨legacy, -, -⟩ := kept
    · obtain ⟨value, -⟩ := SlotState.written.inj opens'.written
      exact ⟨value.symm.trans (Pin.legacyAuth_canonical canonical), fits⟩
    · cases legacy
  · rw [migrate_respelled canonical SlotState.noConfusion] at kept
    by_cases lodges : policy.Lodges q
    · rw [setupPin_stored rfl lodges.taken] at kept
      obtain ⟨means, limit⟩ := made_accepts kept
      exact ⟨means, fun _ => limit.symm.trans same⟩
    · exact absurd kept (useless_unlodged lodges).rejects

/-- The condition, from a change in which no command failed. -/
theorem sound_of_exchanges (found : env.getUidFromUsername name = .ok uid)
    (caller : env.uid = 0 ∨ env.uid = uid) (accepts : acc.Accepts p c)
    (ends : ∀ r a s', exec (process ops) (Util.changePin env name) (t.put serves acc, s) =
      (r, t.put serves a, s') → acc.Exchanges env p c.pinLimit s r a) :
    env.Sound p c.pinLimit acc s := by
  -- what a user makes of the account once the current PIN passed
  have own : ∀ {current}, env.Presents acc s current → acc.Exchanges env p c.pinLimit s
      ((acc.verifyPin uid current env.policy.maxAttempts).2.replaced uid current
        env.policy.maxAttempts (env.newPin s)).1
      ((acc.verifyPin uid current env.policy.maxAttempts).2.replaced uid current
        env.policy.maxAttempts (env.newPin s)).2 := by
    intro current presents
    obtain ⟨s', run⟩ :=
      @exec_changePin_own uid serves t p acc c ops env name s found caller accepts current presents
    exact ends _ _ s' run
  have lodged : ∀ current, env.Presents acc s current → Respelled current acc →
      env.policy.Lodges current := by
    rintro current presents ⟨legacy, spelled, c', current_⟩
    by_contra unlodged
    obtain ⟨tag, -, -⟩ | ⟨tag, opens, short⟩ := current_
    · rw [legacy] at tag
      cases tag
    have exchanges := own presents
    rw [verifyPin_legacy tag opens short,
      migrate_respelled spelled SlotState.noConfusion] at exchanges
    obtain ⟨⟨e, failed⟩, useless⟩ := @replaced_useless uid env.policy.maxAttempts current _
      (env.newPin s) (@useless_unlodged uid current env.policy unlodged)
    obtain ⟨c'', kept, -⟩ := exchanges.kept (.inr ⟨current, presents⟩) e failed
    exact useless.rejects kept
  refine ⟨?_, lodged, ?_⟩
  · rintro (root | ⟨current, presents⟩) new entered
    · have calm := @exec_changePin_any uid serves t p new acc c ops env name s
      obtain ⟨s', run⟩ := calm found caller accepts root entered
      exact lodges_of_exchanges entered (.inl root) (ends _ _ s' run)
    · have exchanges := own presents
      have ready : acc.Ready env.policy current := ⟨presents.2.2, lodged current presents⟩
      obtain ⟨again, tagged⟩ := @Account.Ready.verified uid current acc env.policy ready
      have ready' : (acc.verifyPin uid current env.policy.maxAttempts).2.Ready env.policy current :=
        ⟨again, fun respelled => absurd respelled.1 tagged⟩
      have set : (acc.verifyPin uid current env.policy.maxAttempts).2.replaced uid current
          env.policy.maxAttempts (env.newPin s) =
          Account.setupPin uid new env.policy.maxAttempts ⟨.absent, .absent⟩ := by
        rw [entered, Account.replaced, ready'.deletes]
      rw [set] at exchanges
      exact lodges_of_exchanges entered (.inr ⟨current, presents⟩) exchanges
  · intro current presents e entered
    have exchanges := own presents
    rw [entered] at exchanges
    obtain ⟨c', current_⟩ := presents.2.2
    exact means_of_retains accepts current_ (exchanges.kept (.inr ⟨current, presents⟩) e rfl)

/-- Whatever the current and the new PIN are, and whichever commands fail while the old PIN is in
force (or the current one does not pass), a change is all or nothing exactly where its input meets
the condition. -/
theorem change_exchanges_iff {ops : KeyOps} {env : Env} {name : Str} {s : Stdin}
    (resolved : env.uidOf name = some uid) (caller : env.uid = 0 ∨ env.uid = uid)
    (shows_ : t.Shows serves acc) (accepts : acc.Accepts p c) (slot : acc.slot = .written x c) :
    (∀ events r t' live s',
      (Util.changePin env name).run.Runs (troubled ops (env.Holds acc s serves p x c.pinLimit))
          ((t, True), s) events r ((t', live), s') →
        ∃ a, t'.Shows serves a ∧ acc.Exchanges env p c.pinLimit s r a) ↔
      env.Sound p c.pinLimit acc s := by
  have found : env.getUidFromUsername name = .ok uid := by rw [Env.getUidFromUsername, resolved]
  rw [← shows_.eq_put]
  constructor
  · intro all
    apply sound_of_exchanges found caller accepts
    intro r a s' run
    obtain ⟨events, live, calm⟩ := Prog.runs_latched (P := env.Holds acc s serves p x c.pinLimit)
      (h := Tpm.exec) (g := Stdin.handler ops) (Util.changePin env name).run (t.put serves acc)
      True s
    have calm := calm.mono fun _ _ _ _ act => troubled_calm act
    have run : (Util.changePin env name).run.run (process ops) (t.put serves acc, s) =
      (r, t.put serves a, s') := run
    rw [run] at calm
    obtain ⟨a', shows', exchanges⟩ := all _ _ _ _ _ calm
    rwa [Tpm.put_shows.unique shows']
  · intro sound events r t' live s' run
    obtain ⟨a, left, exchanges⟩ := run.post (changePin_exchanges found caller accepts slot sound)
    refine ⟨a, ?_, exchanges⟩
    rw [show t' = t.put serves a from left]
    exact Tpm.put_shows

end Change

/-! ## Samples -/

/-- What a setup of the PIN 4242 leaves. -/
def userAccount : Account := ⟨.written plainPin.auth ⟨0, 3⟩, .version PIN_VERSION_CURRENT⟩

theorem userSetup_shows : userSetup.after.1.Shows serves_thousand userAccount :=
  ⟨by decide +kernel, by decide +kernel⟩

theorem userSetup_accepts : userAccount.Accepts plainPin ⟨0, 3⟩ :=
  .current rfl ⟨rfl, by decide, by decide⟩ (by decide +kernel)

/-- User 1000 under a policy of PINs of up to 40 bytes. -/
def wideEnv : Env := { sampleEnv with policy := { PinPolicy.default with maxLength := some 40 } }

/-- The current PIN and a new one. -/
def changeInput (new : Str) : Stdin :=
  ⟨[.ok "4242".toList, .ok new], .start ⟨none, none, none⟩⟩

/-- A new PIN of 32 digits, the most that a slot takes. -/
def newLongPin : Pin := ⟨List.replicate 32 '7', by decide +kernel, by decide⟩

/-- The change to it, beside failures that spare the old PIN. -/
def longChange : Behaviour UtilCmd ((Tpm × Prop) × Stdin) :=
  troubled idleKeys (wideEnv.Holds userAccount (changeInput newLongPin.str) serves_thousand plainPin
    plainPin.auth 3)

theorem longChange_sound : wideEnv.Sound plainPin 3 userAccount (changeInput newLongPin.str) := by
  have entered : wideEnv.newPin (changeInput newLongPin.str) = .ok newLongPin := by decide +kernel
  refine ⟨fun _ new same => ?_, ?_, ?_⟩
  · rw [entered] at same
    cases same
    have differs : plainPin.auth ≠ newLongPin.auth := by decide +kernel
    exact ⟨⟨by decide +kernel, by decide, by decide⟩, fun means => absurd means.1 differs⟩
  · rintro current - ⟨legacy, -⟩
    cases legacy
  · intro current _ e failed
    rw [entered] at failed
    cases failed

/-- A change that is made, and one whose first command fails. -/
theorem change_exchanges_once :
    (∃ events z a, (Util.changePin wideEnv "alice".toList).run.Runs longChange
      ((userSetup.after.1, True), changeInput newLongPin.str) events (.ok ()) z ∧
        z.1.1.Shows serves_thousand a ∧
          userAccount.Exchanges wideEnv plainPin 3 (changeInput newLongPin.str) (.ok ()) a) ∧
    ∃ event e z a, (Util.changePin wideEnv "alice".toList).run.Runs longChange
      ((userSetup.after.1, True), changeInput newLongPin.str) [event] (.error e) z ∧
        z.1.1.Shows serves_thousand a ∧
          userAccount.Exchanges wideEnv plainPin 3 (changeInput newLongPin.str) (.error e) a := by
  have exchanges := (@change_exchanges_iff 1000 serves_thousand _ plainPin plainPin.auth userAccount
    ⟨0, 3⟩ idleKeys wideEnv "alice".toList _ rfl (.inr rfl) userSetup_shows userSetup_accepts rfl).2
    longChange_sound
  constructor
  · obtain ⟨events, live, calm⟩ := Prog.runs_latched
      (P := wideEnv.Holds userAccount (changeInput newLongPin.str) serves_thousand plainPin
        plainPin.auth 3)
      (h := Tpm.exec) (g := Stdin.handler idleKeys) (Util.changePin wideEnv "alice".toList).run
      userSetup.after.1 True (changeInput newLongPin.str)
    have done : ((Util.changePin wideEnv "alice".toList).run.run
        (Tpm.exec.sum (Stdin.handler idleKeys))
        (userSetup.after.1, changeInput newLongPin.str)).1 = .ok () := by
      decide +kernel
    rw [done] at calm
    have calm := calm.mono fun _ _ _ _ act => troubled_calm act
    obtain ⟨a, kept⟩ := exchanges _ _ _ _ _ calm
    exact ⟨_, _, a, calm, kept⟩
  · have run : (Util.changePin wideEnv "alice".toList).run.Runs longChange
        ((userSetup.after.1, True), changeInput newLongPin.str) _ (.error _)
        ((userSetup.after.1, True), changeInput newLongPin.str) :=
      .call ⟨.failed _ _ True (⟨0⟩ : Fault) trivial, rfl⟩ (.ret _ _)
    obtain ⟨a, kept⟩ := exchanges _ _ _ _ _ run
    exact ⟨_, _, _, a, run, kept⟩

/-- The TPM refuses a new PIN that the policy allows, when the old slot is gone. -/
theorem change_loses_pin : ¬ ∀ (ops : KeyOps) (env : Env) (name : Str) (uid : UInt32)
    (serves : Serves uid) (xs : List Invocation) (t t' : Tpm) (acc : Account) (p : Pin)
    (c : PinCounters) (keys : KeyStore) (s s' : Stdin)
    (events : List (Event UtilCmd (Tpm × Stdin))) (r : PinResult Unit),
    (∃ system text, PinPolicy.parseConfig system text = .ok env.policy) →
      Session (fun x => x.Happens fun _ => True) xs (Tpm.empty, ⟨none, none, none⟩) (t, keys) →
        env.uidOf name = some uid → (env.uid = 0 ∨ env.uid = uid) →
          t.Shows serves acc → acc.Accepts p c →
            (Util.changePin env name).run.Runs
                ((Faulty Tpm.exec fun _ => True).sum (Stdin.handler ops).graph)
                (t, s) events r (t', s') →
              ∃ a, t'.Shows serves a ∧ acc.Exchanges env p c.pinLimit s r a := by
  intro claim
  have session : Session (fun x => x.Happens fun _ => True) [userSetup]
      (Tpm.empty, ⟨none, none, none⟩) (userSetup.after.1, ⟨none, none, none⟩) :=
    .cons Invocation.given_happens (.nil _)
  have parsed : PinPolicy.parseConfig bareSystem "pin_max_length=40".toList =
      .ok wideEnv.policy := by
    decide +kernel
  have run := Prog.runs_run
    ((Tpm.exec.within_faulty fun _ => True).sum (Stdin.handler idleKeys).graph_within)
    (Util.changePin wideEnv "alice".toList).run
    (userSetup.after.1, changeInput (List.replicate 33 '7'))
  have gone : (exec (process idleKeys) (Util.changePin wideEnv "alice".toList)
      (userSetup.after.1, changeInput (List.replicate 33 '7'))).2.1.Shows serves_thousand
      ⟨.absent, .absent⟩ :=
    ⟨by decide +kernel, by decide +kernel⟩
  have passes : wideEnv.Passes userAccount (changeInput (List.replicate 33 '7')) :=
    .inr ⟨plainPin, by decide, by decide +kernel, _, userSetup_accepts⟩
  obtain ⟨a, shows_, exchanges⟩ := claim idleKeys wideEnv _ 1000 serves_thousand [userSetup] _ _ _
    plainPin _ _ _ _ _ _ ⟨bareSystem, _, parsed⟩ session rfl (.inr rfl) userSetup_shows
    userSetup_accepts run
  obtain rfl := shows_.unique gone
  have useless : ∀ {p c}, ¬ Account.Accepts p ⟨.absent, .absent⟩ c :=
    fun accepts => accepts.present rfl
  cases result : (exec (process idleKeys) (Util.changePin wideEnv "alice".toList)
      (userSetup.after.1, changeInput (List.replicate 33 '7'))).1 with
  | ok _ =>
    obtain ⟨new, c, -, accepts⟩ := exchanges.accepts result
    exact useless accepts
  | error e =>
    obtain ⟨c, accepts, -⟩ := exchanges.kept passes e result
    exact useless accepts

end Pinpam
