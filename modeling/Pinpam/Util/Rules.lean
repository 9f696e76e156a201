import Pinpam.Core.Operations
import Pinpam.Util.Console

/-!
# Rules for the commands of pinutil

One rule for each command on a user, over any behaviour of the TPM side that answers
the reads of the manager (`Serving`): a premise for each operation that changes an
account, with the lines typed until then, and one for every exit before that.
-/

namespace Pinpam
set_option autoImplicit false
open Pinpam.Effect Pinpam.Effect.Fallible

section Serving

variable {S : Type}

/-- From `s` a new connection changes nothing. -/
def Connects (L : Behaviour NvCmd S) (s : S) : Prop :=
  ∀ (tcti : Str) (C : S → Prop) (Q : Except TssError Unit → S → Prop), C s → (∀ r, Q r s) →
  wpx L C (tpm (.connect tcti)) Q s

/-- From `s` the slot of the user reads as `slot` says, and reading changes nothing. -/
structure Serving (L : Behaviour NvCmd S) (uid : UInt32) (slot : Option PinData) (s : S) : Prop where
  connects : Connects L s
  reads : ∀ (C : S → Prop) (Q : PinResult (Option PinData) → S → Prop), C s → Q (.ok slot) s →
    (∀ e, (∀ other, e ≠ .notProvisioned other) → Q (.error e) s) → wpx L C (getPinSlot uid) Q s

variable {P : Tpm → Prop} {t : Tpm} {uid : UInt32}

theorem connects_faulty : Connects (Faulty Tpm.exec P) t :=
  fun _ _ _ crash done => wpx_tpm rfl crash crash (done _) fun _ _ => done _

theorem serving_faulty {serves : Serves uid} {acc : Account} :
    Serving (Faulty Tpm.exec P) uid acc.slot.data (t.put serves acc) where
  connects := connects_faulty
  reads _ _ crash done failed := wpx_getPinSlot crash done fun _ _ => failed _ nofun

/-- A user without indices reads as any slot: the read is never answered. -/
theorem serving_overflow (past : ¬ Serves uid) {slot : Option PinData} :
    Serving (Faulty Tpm.exec P) uid slot t where
  connects := connects_faulty
  reads _ _ crash _ failed := by
    rw [getPinSlot_overflow past]
    exact ⟨crash, failed _ nofun⟩

/-- The count is read from the slot. -/
theorem getAttemptCount_eq : getAttemptCount uid = getPinSlot uid >>= fun
    | some slot => pure (some slot.pinCount.toUInt32)
    | none => pure none := by
  unfold getAttemptCount getPinSlot
  exact (bind_assoc _ _ _).symm

end Serving

section Commands

variable {S : Type} {L : Behaviour NvCmd S} {C : S × Console → Prop} {s : S} {u : Console}
  {env : Env} {uid : UInt32} {slot : Option PinData} {username : Str}

/-- The manager of a run. -/
def Env.manager (env : Env) : PinManager := ⟨env.policy, env.policy.tctiSpec⟩

theorem wpx_newManager {Q : PinResult PinManager → S × Console → Prop} (connects : Connects L s)
    (crash : C (s, u)) (done : Q (.ok env.manager) (s, u)) (failed : ∀ e, Q (.error e) (s, u)) :
    wpx (L.sum Console.any) C (Util.newManager env) Q (s, u) := by
  apply wpx_manage
  unfold PinManager.new
  apply wpx_bind.2 (wpx_mapErr.2 (connects _ (fun s => C (s, u)) _ crash _))
  rintro (e | _)
  · exact ⟨crash, failed _⟩
  · exact ⟨crash, done⟩

theorem wpx_restart {m : PinManager} {Q : PinResult Unit → S × Console → Prop}
    (connects : Connects L s) (crash : C (s, u)) (done : ∀ r, Q r (s, u)) :
    wpx (L.sum Console.any) C (manage m.restartContext) Q (s, u) := by
  apply wpx_manage
  apply wpx_mapErr.2 (connects _ (fun s => C (s, u)) _ crash _)
  exact fun r => done _

theorem wpx_getAttemptInfo {Q : PinResult (Option AttemptInfo) → S × Console → Prop}
    (serving : Serving L uid slot s) (crash : C (s, u))
    (done : Q (.ok (slot.map AttemptInfo.fromPinData)) (s, u)) (failed : ∀ e, Q (.error e) (s, u)) :
    wpx (L.sum Console.any) C (Util.getAttemptInfo uid) Q (s, u) := by
  unfold Util.getAttemptInfo
  apply wpx_bind.2 (wpx_manage (serving.reads (fun s => C (s, u)) _ crash _ _))
  · exact ⟨crash, done⟩
  · exact fun e _ => ⟨crash, failed e⟩

theorem wpx_getAttemptCount {Q : PinResult (Option UInt32) → S × Console → Prop}
    (serving : Serving L uid slot s) (crash : C (s, u))
    (done : Q (.ok (slot.map (·.pinCount.toUInt32))) (s, u))
    (failed : ∀ e, (∀ other, e ≠ .notProvisioned other) → Q (.error e) (s, u)) :
    wpx (L.sum Console.any) C (manage (getAttemptCount uid)) Q (s, u) := by
  apply wpx_manage
  rw [getAttemptCount_eq]
  apply wpx_bind.2 (serving.reads (fun s => C (s, u)) _ crash _ _)
  · cases slot <;> exact ⟨crash, done⟩
  · exact fun e other => ⟨crash, failed e other⟩

/-- A name that is not in the account database. -/
theorem getUid_cases (env : Env) (username : Str) :
    env.getUidFromUsername username = .error .userNotFound ∨
      ∃ uid, env.uidOf username = some uid ∧ env.getUidFromUsername username = .ok uid := by
  unfold Env.getUidFromUsername
  cases found : env.uidOf username with
  | none => exact .inl rfl
  | some uid => exact .inr ⟨uid, rfl, rfl⟩

/-! ## Setting up -/

theorem Util.wpx_setupPin {Q : PinResult Unit → S × Console → Prop}
    (resolved : env.getUidFromUsername username = .ok uid) (serving : Serving L uid slot s)
    (crash : ∀ lines, C (s, u.types lines)) (kept : ∀ e lines, Q (.error e) (s, u.types lines))
    (entered : env.canManagePin uid = true → slot = none → ∀ line pin rest,
      (env.machine = true → rest = []) →
      Pin.new line env.policy = .ok pin → wpx L (fun s => C (s, u.types (line :: rest)))
        (env.manager.setupPin uid pin)
        (fun r s => Q r (s, u.types (line :: rest))) s) :
    wpx (L.sum Console.any) C (setupPin env username) Q (s, u) := by
  have here : C (s, u) := by simpa using crash []
  have fails : ∀ e, C (s, u) ∧ Q (.error e) (s, u) := fun e => ⟨here, by simpa using kept e []⟩
  unfold setupPin
  rw [resolved, ofResult_ok_bind]
  split
  · exact fails _
  next manages =>
    apply wpx_bind.2 (wpx_newManager serving.connects here _ fails)
    apply wpx_bind.2 (wpx_attempt.2 (wpx_getAttemptCount serving here _ _))
    · cases slot with
      | some data => exact fails _
      | none =>
        apply wpx_bind.2 (wpx_confirmedPin crash _ _)
        · exact fun e lines => ⟨crash lines, kept e lines⟩
        intro line pin rest machine made
        apply wpx_bind.2
          (wpx_manage (wpx_mono (entered (by simpa using manages) rfl line pin rest machine made) _))
        rintro (e | _) s' crash' post
        · exact ⟨crash', post⟩
        · exact wpx_human crash' post
    · intro e other
      dsimp only
      split
      · next eq => cases eq
      · next eq => cases eq; exact absurd rfl (other _)
      · next eq => cases eq
      · next eq => exact fails _

/-! ## Changing -/

theorem Util.wpx_changePin {Q : PinResult Unit → S × Console → Prop}
    (resolved : env.getUidFromUsername username = .ok uid) (serving : Serving L uid slot s)
    (crash : ∀ lines, C (s, u.types lines)) (kept : ∀ e lines, Q (.error e) (s, u.types lines))
    (own : env.uid ≠ 0 → env.uid = uid → ∀ data, slot = some data →
      (AttemptInfo.fromPinData data).locked = false →
      ∀ line current, Pin.new line env.policy = .ok current →
        wpx L (fun s => C (s, u.types [line])) (env.manager.verifyPin uid current) (fun r s' =>
          match r with
          | .ok (.success _) => Connects L s' ∧
            (∀ lines, C (s', u.types (line :: lines)) ∧ ∀ e,
              Q (.error e) (s', u.types (line :: lines))) ∧
            ∀ line' new rest, (env.machine = true → rest = []) → Pin.new line' env.policy = .ok new →
              wpx L (fun s => C (s, u.types (line :: line' :: rest)))
                (env.manager.deletePinWithAuth uid current) (fun r s'' =>
                  match r with
                  | .ok .success => wpx L (fun s => C (s, u.types (line :: line' :: rest)))
                      (env.manager.setupPin uid new)
                      (fun r s => Q r (s, u.types (line :: line' :: rest))) s''
                  | _ => ∀ e, Q (.error e) (s'', u.types (line :: line' :: rest))) s'
          | _ => ∀ e, Q (.error e) (s', u.types [line])) s)
    (any : env.uid = 0 → ∀ data, slot = some data → ∀ line new rest, (env.machine = true → rest = []) →
      Pin.new line env.policy = .ok new →
        wpx L (fun s => C (s, u.types (line :: rest))) (deletePinAdmin uid) (fun r s' =>
          match r with
          | .ok () => wpx L (fun s => C (s, u.types (line :: rest))) (env.manager.setupPin uid new)
              (fun r s => Q r (s, u.types (line :: rest))) s'
          | .error e => Q (.error e) (s', u.types (line :: rest))) s) :
    wpx (L.sum Console.any) C (changePin env username) Q (s, u) := by
  have here : C (s, u) := by simpa using crash []
  have fails : ∀ e, C (s, u) ∧ Q (.error e) (s, u) := fun e => ⟨here, by simpa using kept e []⟩
  unfold changePin
  rw [resolved, ofResult_ok_bind]
  split
  · exact fails _
  next manages =>
    apply wpx_bind.2 (wpx_newManager serving.connects here _ fails)
    apply wpx_bind.2 (wpx_getAttemptInfo serving here _ fails)
    cases slot with
    | none => exact fails _
    | some data =>
      apply wpx_bind.2 (wpx_restart serving.connects here _)
      rintro (e | _)
      · exact fails e
      dsimp only
      split
      · next user =>
        have same : env.uid = uid := by
          unfold Env.canManagePin at manages
          simp_all
        unfold changeOwnPin
        split
        · exact fails _
        next unlocked =>
          apply wpx_bind.2 (wpx_promptPin crash _ _)
          · exact fun e lines => ⟨crash lines, kept e lines⟩
          intro line current made
          have verified := own user same data rfl (by simpa using unlocked) line current made
          apply wpx_bind.2 (wpx_manage (wpx_mono verified _))
          rintro (e | (slot | locked | _)) s' crash' post
          · exact ⟨crash', post e⟩
          · obtain ⟨connects, open_, renew⟩ := post
            apply wpx_bind.2 (wpx_restart connects crash' _)
            rintro (e | _)
            · exact ⟨crash', (open_ []).2 e⟩
            apply wpx_bind.2 (wpx_confirmedPin _ _ _)
            · intro lines
              rw [Console.types_types]
              exact (open_ lines).1
            · intro e lines
              rw [Console.types_types]
              exact ⟨(open_ lines).1, (open_ lines).2 e⟩
            intro line' new rest machine made'
            rw [Console.types_types]
            apply wpx_bind.2 (wpx_manage (wpx_mono (renew line' new rest machine made') _))
            rintro (e | (_ | locked | _)) s'' crash'' post
            · exact ⟨crash'', post e⟩
            · apply wpx_bind.2 (wpx_manage (wpx_mono post _))
              rintro (e | _) s₃ crash₃ post
              · exact ⟨crash₃, post⟩
              · exact wpx_human crash₃ post
            · exact ⟨crash'', post _⟩
            · exact ⟨crash'', post _⟩
          · exact ⟨crash', post _⟩
          · exact ⟨crash', post _⟩
      · next root =>
        unfold changeAnyPin
        apply wpx_bind.2 (wpx_confirmedPin crash _ _)
        · exact fun e lines => ⟨crash lines, kept e lines⟩
        intro line new rest machine made
        apply wpx_bind.2
          (wpx_manage (wpx_mono (any (not_not.1 root) data rfl line new rest machine made) _))
        rintro (e | _) s' crash' post
        · exact ⟨crash', post⟩
        · apply wpx_bind.2 (wpx_manage (wpx_mono post _))
          rintro (e | _) s'' crash'' post
          · exact ⟨crash'', post⟩
          · exact wpx_human crash'' post

/-! ## Deleting -/

theorem Util.wpx_deletePin {Q : PinResult Unit → S × Console → Prop}
    (resolved : env.getUidFromUsername username = .ok uid) (serving : Serving L uid slot s)
    (crash : ∀ lines, C (s, u.types lines)) (kept : ∀ e lines, Q (.error e) (s, u.types lines))
    (cancelled : env.uid = 0 → env.machine = false → ∀ lines, Q (.ok ()) (s, u.types lines))
    (any : env.uid = 0 → ∀ data, slot = some data → ∀ lines, (env.machine = true → lines = []) →
      wpx L (fun s => C (s, u.types lines)) (deletePinAdmin uid) (fun r s => Q r (s, u.types lines)) s)
    (own : env.uid ≠ 0 → env.uid = uid → ∀ data, slot = some data →
      (AttemptInfo.fromPinData data).locked = false →
      ∀ line pin, Pin.new line env.policy = .ok pin →
        wpx L (fun s => C (s, u.types [line])) (env.manager.deletePinWithAuth uid pin)
          (fun r s => Q (r.map fun _ => ()) (s, u.types [line])) s) :
    wpx (L.sum Console.any) C (deletePin env username) Q (s, u) := by
  have here : C (s, u) := by simpa using crash []
  have fails : ∀ e, C (s, u) ∧ Q (.error e) (s, u) := fun e => ⟨here, by simpa using kept e []⟩
  unfold deletePin
  rw [resolved, ofResult_ok_bind]
  split
  · exact fails _
  next owner =>
    apply wpx_bind.2 (wpx_newManager serving.connects here _ fails)
    apply wpx_bind.2 (wpx_getAttemptInfo serving here _ fails)
    cases slot with
    | none => exact fails _
    | some data =>
      dsimp only [Option.map]
      split
      · exact fails _
      next unlocked =>
        split
        · next root =>
          unfold deleteAnyPin
          have confirmed : ∀ (text : PinResult Unit → Text) (lines), (env.machine = true → lines = []) →
              wpx (L.sum Console.any) C
                (do
                  let result ← (attempt (manage (deletePinAdmin uid)) : UtilM (PinResult Unit))
                  human env (text result)
                  ofResult result) Q (s, u.types lines) := by
            intro text lines machine
            apply wpx_bind.2 (wpx_attempt.2 (wpx_manage (wpx_mono (any root data rfl lines machine) _)))
            intro r s' crash' post
            apply wpx_bind.2 (wpx_human crash' _)
            exact ⟨crash', post⟩
          by_cases machine : env.machine = true
          · simp only [machine, if_true, pure_bind, not_true, if_false]
            have silent := fun text => confirmed text [] fun _ => rfl
            simp only [Console.types_nil] at silent
            exact silent _
          · simp only [machine, Bool.false_eq_true, if_false]
            apply wpx_bind.2 (wpx_tell here _)
            apply wpx_bind.2 (wpx_flush here _)
            rintro (e | _)
            · exact fails e
            apply wpx_bind.2 (wpx_readLine crash _ fails)
            intro line
            dsimp only
            rw [pure_bind]
            split
            · apply wpx_tell (crash [line])
              exact cancelled root (by simpa using machine) [line]
            · exact confirmed _ [line] fun on => absurd on machine
        · next user =>
          have same : env.uid = uid := by
            by_contra other
            exact owner ⟨user, other⟩
          have open_ : (AttemptInfo.fromPinData data).locked = false := by
            by_contra locked
            exact unlocked ⟨user, by simpa using locked⟩
          unfold deleteOwnPin
          apply wpx_bind.2 (wpx_promptPin crash _ _)
          · exact fun e lines => ⟨crash lines, kept e lines⟩
          intro line pin made
          apply wpx_bind.2 (wpx_manage (wpx_mono (own user same data rfl open_ line pin made) _))
          rintro (e | result) s' crash' post
          · exact ⟨crash', post⟩
          · exact wpx_human crash' post

/-! ## Testing -/

theorem Util.wpx_testPin {Q : PinResult Unit → S × Console → Prop}
    (resolved : env.getUidFromUsername username = .ok uid) (serving : Serving L uid slot s)
    (crash : ∀ lines, C (s, u.types lines)) (kept : ∀ e lines, Q (.error e) (s, u.types lines))
    (entered : env.canAttemptPin uid = true → ∀ data, slot = some data →
      (AttemptInfo.fromPinData data).locked = false →
      ∀ line pin, Pin.new line env.policy = .ok pin →
        wpx L (fun s => C (s, u.types [line])) (env.manager.verifyPin uid pin) (fun r s =>
          (∀ v, r = .ok v → (∃ data, v = .success data) ∨ env.machine = false →
            Q (.ok ()) (s, u.types [line])) ∧
            ((∀ data, r ≠ .ok (.success data)) → ∀ e, Q (.error e) (s, u.types [line]))) s) :
    wpx (L.sum Console.any) C (testPin env username) Q (s, u) := by
  have here : C (s, u) := by simpa using crash []
  have fails : ∀ e, C (s, u) ∧ Q (.error e) (s, u) := fun e => ⟨here, by simpa using kept e []⟩
  unfold testPin
  rw [resolved, ofResult_ok_bind]
  split
  · exact fails _
  next attempts =>
    apply wpx_bind.2 (wpx_newManager serving.connects here _ fails)
    apply wpx_bind.2 (wpx_getAttemptInfo serving here _ fails)
    cases slot with
    | none => exact wpx_bind.2 (wpx_human here (fails _))
    | some data =>
      dsimp only [Option.map]
      split
      · exact wpx_bind.2 (wpx_human here (fails _))
      next unlocked =>
        apply wpx_bind.2 (wpx_promptPin crash _ _)
        · exact fun e lines => ⟨crash lines, kept e lines⟩
        intro line pin made
        have verified :=
          entered (by simpa using attempts) data rfl (by simpa using unlocked) line pin made
        apply wpx_bind.2 (wpx_manage (wpx_mono verified _))
        rintro (e | v) s' crash' ⟨passes, refuses⟩
        · exact ⟨crash', refuses nofun e⟩
        dsimp only
        split
        · rcases v with slot | locked | _
          · exact ⟨crash', passes _ rfl (.inl ⟨slot, rfl⟩)⟩
          · exact ⟨crash', refuses nofun _⟩
          · exact ⟨crash', refuses nofun _⟩
        · next human => exact wpx_tell crash' (passes v rfl (.inr (by simpa using human)))

/-! ## Showing -/

theorem Util.wpx_showStatus {Q : PinResult (Option AttemptInfo) → S × Console → Prop}
    (resolved : env.getUidFromUsername username = .ok uid) (serving : Serving L uid slot s)
    (crash : C (s, u)) (kept : ∀ r, Q r (s, u)) :
    wpx (L.sum Console.any) C (showStatus env username) Q (s, u) := by
  unfold showStatus
  rw [resolved, ofResult_ok_bind]
  apply wpx_bind.2 (wpx_newManager serving.connects crash _ fun e => ⟨crash, kept _⟩)
  apply wpx_bind.2 (wpx_human crash _)
  apply wpx_bind.2 (wpx_getAttemptInfo serving crash _ fun e => ⟨crash, kept _⟩)
  cases slot with
  | none => exact wpx_bind.2 (wpx_human crash ⟨crash, kept _⟩)
  | some data =>
    apply wpx_bind.2 (wpx_human crash _)
    apply wpx_bind.2 (wpx_human crash _)
    apply wpx_bind.2 (wpx_human crash _)
    exact ⟨crash, kept _⟩

/-! ## The process -/

/-- What `handle_result` makes of a result. -/
def Env.reported {α : Type} [Serialize α] (env : Env) (r : PinResult α) (u : Console) : Console :=
  if env.machine then u.prints (toJson r) else u

def reportExit {α : Type} : PinResult α → Except Stop Unit
  | .ok _ => .ok ()
  | .error _ => .error (.exit 1)

theorem wpx_report {α : Type} [Serialize α] {command : UtilM α}
    {Q : Except Stop Unit → S × Console → Prop}
    (body : wpx (L.sum Console.any) C command (fun r x => C (x.1, env.reported r x.2) ∧
      Q (reportExit r) (x.1, env.reported r x.2)) (s, u)) :
    wpx (L.sum Console.any) C (Util.report env command) Q (s, u) := by
  unfold Util.report
  apply wpx_bind.2 (wpx_attempt.2 (wpx_mono body _))
  rintro r ⟨s', u'⟩ crash ⟨crash', post⟩
  unfold Util.handleResult
  unfold Env.reported at crash' post
  dsimp only at crash' post ⊢
  split
  · next machine =>
    rw [if_pos machine] at crash' post
    apply wpx_bind.2 (wpx_inr.2 ⟨crash, _⟩)
    rintro _ _ rfl
    refine ⟨crash', ?_⟩
    cases r with
    | error e => exact ⟨crash', post⟩
    | ok a => exact ⟨crash', post⟩
  · next human =>
    rw [if_neg human] at crash' post
    cases r with
    | error e => exact wpx_bind.2 (wpx_tell crash' ⟨crash', post⟩)
    | ok a => exact ⟨crash', post⟩

theorem wpx_onUser {α : Type} [Serialize α] {command : Str → UtilM α} {username : Option Str}
    {Q : Except Stop Unit → S × Console → Prop} (crash : C (s, u))
    (unknown : ∀ e, Q (.error (.returned e)) (s, u))
    (resolved : ∀ name, env.resolveUsername username = .ok name →
      wpx (L.sum Console.any) C (Util.report env (command name)) Q (s, u)) :
    wpx (L.sum Console.any) C (Util.onUser env command username) Q (s, u) := by
  unfold Util.onUser
  cases found : env.resolveUsername username with
  | error e => exact ⟨crash, unknown e⟩
  | ok name => exact wpx_bind.2 ⟨crash, resolved name found⟩

end Commands

end Pinpam
