import Mathlib.Logic.Function.Iterate
import Pinpam.Pam.LockTests
import Pinpam.Util.Limits

/-!
# The attempts that remain

pinutil shows the difference of the limit and the count, of the words as it clamps them.
For a limit without the sign bit that is the number of wrong attempts that the TPM still
takes; a limit with one is shown as zero, and the difference wraps.
-/

namespace Pinpam
set_option autoImplicit false
open Pinpam.Effect Pinpam.Effect.Fallible

/-- The TPM takes `n` wrong attempts, and is locked by the last. -/
structure PinCounters.Allows (c : PinCounters) (n : Nat) : Prop where
  open_ : ∀ k < n, ¬ ((PinCounters.after · false)^[k] c).locked
  locked : ((PinCounters.after · false)^[n] c).locked

/-- The texts that count attempts: what is said to remain, and of how many. -/
def Text.counts : Text → Option (UInt32 × UInt32)
  | .pinPrompt remaining limit | .remainingAttempts remaining limit => some (remaining, limit)
  | _ => none

/-- A difference that is shown has not wrapped, and is what the TPM allows. -/
def CountsRight {uid : UInt32} (serves : Serves uid) (event : Event UtilCmd (Tpm × Console)) : Prop :=
  ∀ text remaining limit, event.op = .inr (.tell text) → text.counts = some (remaining, limit) →
  remaining ≤ limit ∧
    ∃ a c tag, event.before.1.Shows serves ⟨.written a c, tag⟩ ∧ c.Allows remaining.toNat

/-- A TPM that may fail any command, and any host. -/
abbrev anyHost : Behaviour UtilCmd (Tpm × Console) := (Faulty Tpm.exec fun _ => True).sum Console.any

section Counters

variable {c : PinCounters} {n : Nat}

theorem wrong_attempts (low : c.pinCount.toNat + n ≤ c.pinLimit.toNat) :
    ((PinCounters.after · false)^[n] c).pinCount.toNat = c.pinCount.toNat + n ∧
      ((PinCounters.after · false)^[n] c).pinLimit = c.pinLimit := by
  induction n with
  | zero => exact ⟨rfl, rfl⟩
  | succ n ih =>
    obtain ⟨count, limit⟩ := ih (by omega)
    have bound := c.pinLimit.toNat_lt
    rw [Function.iterate_succ_apply']
    refine ⟨?_, limit⟩
    show (((PinCounters.after · false)^[n] c).pinCount + 1).toNat = _
    rw [UInt32.toNat_add, count, UInt32.toNat_one]
    omega

/-- The attempts that are left are the difference of the limit and the count. -/
theorem allows_iff (low : c.pinCount ≤ c.pinLimit) :
    c.Allows n ↔ n = c.pinLimit.toNat - c.pinCount.toNat := by
  have below := UInt32.le_iff_toNat_le.1 low
  have locked_iff : ∀ k, c.pinCount.toNat + k ≤ c.pinLimit.toNat →
      (((PinCounters.after · false)^[k] c).locked ↔ c.pinLimit.toNat ≤ c.pinCount.toNat + k) := by
    intro k within
    obtain ⟨count, limit⟩ := wrong_attempts within
    unfold PinCounters.locked
    rw [UInt32.le_iff_toNat_le, count, limit]
  constructor
  · rintro ⟨open_, locked⟩
    rcases Nat.lt_trichotomy n (c.pinLimit.toNat - c.pinCount.toNat) with few | same | many
    · have reached := (locked_iff n (by omega)).1 locked
      omega
    · exact same
    · exact absurd ((locked_iff _ (by omega)).2 (by omega)) (open_ _ many)
  · rintro rfl
    constructor
    · intro k few locked
      have reached := (locked_iff k (by omega)).1 locked
      omega
    · exact (locked_iff _ (by omega)).2 (by omega)

/-- Below the sign bit pinutil has the words of the TPM. -/
theorem fromPinData_low (count : c.pinCount.toNat < 2 ^ 31) (low : c.pinLimit.toNat < 2 ^ 31) :
    AttemptInfo.fromPinData c.data = ⟨c.pinCount, c.pinLimit⟩ := by
  have countInt : c.data.pinCount.toInt = c.pinCount.toNat := toInt_toInt32 count
  have limitInt : c.data.pinLimit.toInt = c.pinLimit.toNat := toInt_toInt32 low
  have nonneg : ¬ c.data.pinCount < 0 := by
    intro negative
    have below := Int32.lt_iff_toInt_lt.1 negative
    rw [countInt, Int32.toInt_zero] at below
    omega
  unfold AttemptInfo.fromPinData
  rw [if_neg nonneg]
  by_cases none : c.data.pinLimit ≤ 0
  · have zero := Int32.le_iff_toInt_le.1 none
    rw [limitInt, Int32.toInt_zero] at zero
    have same : c.pinLimit = 0 := UInt32.toNat_inj.1 (by rw [UInt32.toNat_zero]; omega)
    rw [if_pos none, same]
    rfl
  · rw [if_neg none]
    rfl

/-- A limit with the sign bit is shown as zero. -/
theorem fromPinData_high (high : 2 ^ 31 ≤ c.pinLimit.toNat) :
    (AttemptInfo.fromPinData c.data).limit = 0 := by
  have negative : c.data.pinLimit ≤ 0 := by
    apply Int32.le_iff_toInt_le.2
    show c.pinLimit.toBitVec.toInt ≤ 0
    have signed := BitVec.toInt_eq_toNat_cond c.pinLimit.toBitVec
    have bound := c.pinLimit.toNat_lt
    have value : c.pinLimit.toBitVec.toNat = c.pinLimit.toNat := rfl
    rw [value, if_neg (by omega)] at signed
    omega
  exact if_pos negative

end Counters

/-! ## What a run shows -/

/-- Before the PIN is tried: only reads, and every count is the one that was read. -/
def Shown (info : AttemptInfo) : UtilCmd → Prop
  | .inl c => c.Quiet
  | .inr (.tell text) => ∀ x, text.counts = some x → x = (info.limit - info.used, info.limit)
  | .inr _ => True

/-- No count is shown. -/
def Uncounted : UtilCmd → Prop
  | .inr (.tell text) => text.counts = none
  | _ => True

section Only

variable {O : UtilCmd → Prop} {env : Env} {info : AttemptInfo} {prompt again text : Text}
  {attempts : Option (UInt32 × UInt32)}

theorem onlyX_manage {α : Type} {x : PinM α} : OnlyX Uncounted (manage x) :=
  onlyX_inl (Prog.only_any (fun _ => trivial) _)

theorem onlyX_human (told : O (.inr (.tell text))) : OnlyX O (Util.human env text) := by
  unfold Util.human
  split
  · exact onlyX_pure
  · exact onlyX_op told

/-- A prompt says one text, and an end of line. -/
theorem onlyX_promptPin (told : O (.inr (.tell (match attempts with
      | some (used, limit) => .pinPrompt (limit - used) limit
      | none => prompt)))) (newline : O (.inr (.tell .newline)))
    (host : ∀ e, (∀ text, e ≠ .tell text) → O (.inr e)) :
      OnlyX O (Util.promptPin env prompt attempts) := by
  have reads : OnlyX O readLine := onlyX_op (host .readLine nofun)
  have echoes : ∀ on, OnlyX O (echo on) := fun on => onlyX_op (host (.echo on) nofun)
  have flushes : OnlyX O flush := onlyX_op (host .flush nofun)
  unfold Util.promptPin
  split
  · exact onlyX_bind reads fun _ => onlyX_ofResult
  · apply onlyX_bind (onlyX_op told)
    intro _
    apply onlyX_bind flushes
    intro _
    apply onlyX_bind (echoes false)
    intro _
    apply onlyX_bind (onlyX_attempt reads)
    intro _
    apply onlyX_bind (echoes true)
    intro _
    apply onlyX_bind (onlyX_op newline)
    intro _
    exact onlyX_bind onlyX_ofResult fun _ => onlyX_ofResult

theorem confirmedPin_uncounted (plain : prompt.counts = none) (plain' : again.counts = none) :
    OnlyX Uncounted (Util.confirmedPin env prompt again) := by
  have host : ∀ e : HostCmd, (∀ text, e ≠ .tell text) → Uncounted (.inr e) := by
    intro e other
    cases e with
    | tell text => exact absurd rfl (other text)
    | _ => trivial
  unfold Util.confirmedPin
  apply onlyX_bind
    (show OnlyX Uncounted (Util.promptPin env prompt none) from onlyX_promptPin plain rfl host)
  intro pin
  split
  · exact onlyX_pure
  · apply onlyX_bind
      (show OnlyX Uncounted (Util.promptPin env again none) from onlyX_promptPin plain' rfl host)
    intro confirm
    split
    · exact onlyX_throw
    · exact onlyX_pure

end Only

section Commands

variable {ε α β : Type} {uid : UInt32} {serves : Serves uid} {t : Tpm} {a : Auth} {c : PinCounters}
  {tag : TagState} {env : Env} {info : AttemptInfo} {username : Str} {x : Fallible UtilCmd ε α}
  {f : α → Fallible UtilCmd ε β}

/-- From this TPM the program shows no wrong count. -/
def Counts (serves : Serves uid) (t : Tpm) (x : Fallible UtilCmd ε α) : Prop :=
  ∀ y : (Tpm × Console) × Prop, y.1.1 = t → ¬ y.2 →
    wpx (Watching (fun event => ¬ CountsRight serves event) anyHost) (fun _ => True) x
      (fun _ y => ¬ y.2) y

/-- The difference of these words is what the slot allows. -/
def Right (serves : Serves uid) (t : Tpm) (info : AttemptInfo) : Prop :=
  info.limit - info.used ≤ info.limit ∧ ∃ a c tag, t.Shows serves ⟨.written a c, tag⟩ ∧
  c.Allows (info.limit - info.used).toNat

theorem counts_rest (only : OnlyX Uncounted x) : Counts serves t x := by
  intro y _ unseen
  refine wpx_mono (Prog.wp_unseen (I := fun _ => True) ?_ only trivial unseen) fun _ _ _ post => post.2
  refine fun e s r s' called _ _ => ⟨trivial, not_not.2 ?_⟩
  rintro text remaining limit rfl counts
  cases (show text.counts = none from called).symm.trans counts

theorem wpx_shows (right : Right serves t info) (only : OnlyX (Shown info) x)
    {y : (Tpm × Console) × Prop} (here : y.1.1 = t) (unseen : ¬ y.2) :
    wpx (Watching (fun event => ¬ CountsRight serves event) anyHost) (fun _ => True) x
      (fun _ y => y.1.1 = t ∧ ¬ y.2) y := by
  refine Prog.wp_unseen (I := fun x => x.1 = t) ?_ only here unseen
  rintro e ⟨t', u⟩ r ⟨t'', u'⟩ called rfl act
  constructor
  · cases e with
    | inl c => exact quiet_step called act.1
    | inr e => exact act.2
  · refine not_not.2 ?_
    rintro text remaining limit rfl counts
    cases (show ∀ x, text.counts = some x → _ from called) _ counts
    exact right

theorem counts_bind (right : Right serves t info) (only : OnlyX (Shown info) x)
    (next : ∀ a, Counts serves t (f a)) :
    Counts serves t (x >>= f) := by
  intro y here unseen
  refine wpx_bind.2 (wpx_mono (wpx_shows right only here unseen) ?_)
  rintro (e | a) y' - ⟨here', unseen'⟩
  · exact ⟨trivial, unseen'⟩
  · exact next a y' here' unseen'

/-- The slot is read, and its words are what is shown from then on. -/
theorem counts_info {f : Option AttemptInfo → UtilM β} (shows_ : t.Shows serves ⟨.written a c, tag⟩)
    (next : Counts serves t (f (some (AttemptInfo.fromPinData c.data)))) :
    Counts serves t (Util.getAttemptInfo uid >>= f) := by
  rintro ⟨⟨t', u⟩, past⟩ rfl unseen
  dsimp only at shows_ next unseen
  have known : wpx anyHost (fun _ => True) (Util.getAttemptInfo uid) (fun r x => x.1 = t' ∧
      (r = .ok (some (AttemptInfo.fromPinData c.data)) ∨ ∃ e, r = .error e)) (t', u) := by
    rw [← shows_.eq_put]
    exact wpx_getAttemptInfo serving_faulty trivial ⟨rfl, .inl rfl⟩ fun e => ⟨rfl, .inr ⟨e, rfl⟩⟩
  have uncounted : OnlyX Uncounted (Util.getAttemptInfo uid) :=
    onlyX_bind onlyX_manage fun _ => onlyX_pure
  refine wpx_bind.2
    (wpx_mono (Prog.wp_and (Prog.wp_watching known) (counts_rest uncounted _ rfl unseen)) ?_)
  rintro r y' - ⟨⟨here, rfl | ⟨e, rfl⟩⟩, unseen'⟩
  · exact next y' here unseen'
  · exact ⟨trivial, unseen'⟩

theorem newManager_shows : OnlyX (Shown info) (Util.newManager env) :=
  onlyX_inl (onlyX_bind (onlyX_mapErr (onlyX_op trivial)) fun _ => onlyX_pure)

theorem restart_shows {m : PinManager} : OnlyX (Shown info) (manage m.restartContext) :=
  onlyX_inl (onlyX_mapErr (onlyX_op trivial))

theorem shows_plain {text : Text} (plain : text.counts = none) : Shown info (.inr (.tell text)) := by
  intro x counts
  cases plain.symm.trans counts

theorem shows_count {text : Text} (counts : text.counts = some (info.limit - info.used, info.limit)) :
    Shown info (.inr (.tell text)) :=
  fun _ counts' => (Option.some.inj (counts.symm.trans counts')).symm

theorem promptPin_shows {prompt : Text} :
    OnlyX (Shown info) (Util.promptPin env prompt (some info.promptTuple)) := by
  apply onlyX_promptPin
  · exact shows_count rfl
  · exact shows_plain rfl
  · intro e other
    cases e with
    | tell text => exact absurd rfl (other text)
    | _ => trivial

variable (right : Right serves t (AttemptInfo.fromPinData c.data))
  (shows_ : t.Shows serves ⟨.written a c, tag⟩)
  (resolved : env.getUidFromUsername username = .ok uid)
include right shows_ resolved

theorem showStatus_counts : Counts serves t (Util.showStatus env username) := by
  unfold Util.showStatus
  rw [resolved, ofResult_ok_bind]
  apply counts_bind right newManager_shows
  intro _
  apply counts_bind right (onlyX_human (shows_plain rfl))
  intro _
  apply counts_info shows_
  apply counts_bind right (onlyX_human (shows_plain rfl))
  intro _
  apply counts_bind right (onlyX_human (shows_count rfl))
  intro _
  apply counts_rest
  exact onlyX_bind (onlyX_human rfl) fun _ => onlyX_pure

theorem testPin_counts : Counts serves t (Util.testPin env username) := by
  unfold Util.testPin
  rw [resolved, ofResult_ok_bind]
  split
  · exact counts_rest onlyX_throw
  apply counts_bind right newManager_shows
  intro _
  apply counts_info shows_
  dsimp only
  split
  · exact counts_rest (onlyX_bind (onlyX_human rfl) fun _ => onlyX_throw)
  apply counts_bind right promptPin_shows
  intro pin
  apply counts_rest
  apply onlyX_bind onlyX_manage
  intro result
  split
  · cases result with
    | success slot => exact onlyX_pure
    | invalid locked => exact onlyX_throw
    | lockedOut => exact onlyX_throw
  · apply onlyX_op
    cases result <;> rfl

theorem changePin_counts : Counts serves t (Util.changePin env username) := by
  unfold Util.changePin
  rw [resolved, ofResult_ok_bind]
  split
  · exact counts_rest onlyX_throw
  apply counts_bind right newManager_shows
  intro _
  apply counts_info shows_
  apply counts_bind right restart_shows
  intro _
  split
  · unfold Util.changeOwnPin
    split
    · exact counts_rest onlyX_throw
    apply counts_bind right promptPin_shows
    intro current
    apply counts_rest
    apply onlyX_bind onlyX_manage
    intro result
    cases result with
    | invalid locked => exact onlyX_throw
    | lockedOut => exact onlyX_throw
    | success slot =>
      apply onlyX_bind onlyX_manage
      intro _
      apply onlyX_bind (confirmedPin_uncounted rfl rfl)
      intro new
      apply onlyX_bind onlyX_manage
      intro deleted
      cases deleted with
      | success => exact onlyX_bind onlyX_manage fun _ => onlyX_human rfl
      | invalid locked => exact onlyX_throw
      | lockedOut => exact onlyX_throw
  · apply counts_rest
    unfold Util.changeAnyPin
    apply onlyX_bind (confirmedPin_uncounted rfl rfl)
    intro new
    apply onlyX_bind onlyX_manage
    intro _
    exact onlyX_bind onlyX_manage fun _ => onlyX_human rfl

theorem deletePin_counts : Counts serves t (Util.deletePin env username) := by
  unfold Util.deletePin
  rw [resolved, ofResult_ok_bind]
  split
  · exact counts_rest onlyX_throw
  apply counts_bind right newManager_shows
  intro _
  apply counts_info shows_
  dsimp only
  split
  · exact counts_rest onlyX_throw
  split
  · apply counts_rest
    unfold Util.deleteAnyPin
    have removes :
        ∀ (confirmed : Bool) (text : PinResult Unit → Text), (∀ r, Uncounted (.inr (.tell (text r)))) →
        OnlyX Uncounted (if ¬ confirmed then tell .cancelled else do
          let result ← (attempt (manage (deletePinAdmin uid)) : UtilM (PinResult Unit))
          Util.human env (text result)
          ofResult result) := by
      intro confirmed text plain
      split
      · exact onlyX_op rfl
      · apply onlyX_bind (onlyX_attempt onlyX_manage)
        intro result
        exact onlyX_bind (onlyX_human (plain result)) fun _ => onlyX_ofResult
    have asks : OnlyX Uncounted (tell (.deletePrompt username) : UtilM Unit) := onlyX_op rfl
    have flushes : OnlyX Uncounted flush := onlyX_op trivial
    have reads : OnlyX Uncounted readLine := onlyX_op trivial
    dsimp only
    split
    · exact onlyX_bind onlyX_pure fun confirmed => removes confirmed _ (by rintro (_ | _) <;> rfl)
    · apply onlyX_bind asks
      intro _
      apply onlyX_bind flushes
      intro _
      apply onlyX_bind reads
      intro _
      exact onlyX_bind onlyX_pure fun confirmed => removes confirmed _ (by rintro (_ | _) <;> rfl)
  · unfold Util.deleteOwnPin
    apply counts_bind right promptPin_shows
    intro pin
    apply counts_rest
    apply onlyX_bind onlyX_manage
    intro result
    apply onlyX_human
    cases result <;> rfl

omit right shows_ resolved in
/-- A command on its user, and its report. -/
theorem counts_onUser {α : Type} [Serialize α] {command : Str → UtilM α} {username : Option Str}
    (names : env.Names username uid)
    (body : ∀ name, env.getUidFromUsername name = .ok uid → Counts serves t (command name)) :
    Counts serves t (Util.onUser env command username) := by
  obtain ⟨name, resolved, found⟩ := names
  have uidFound : env.getUidFromUsername name = .ok uid := by rw [Env.getUidFromUsername, found]
  intro y here unseen
  unfold Util.onUser Util.report
  rw [resolved]
  refine wpx_bind.2 ⟨trivial,
    wpx_bind.2 (wpx_attempt.2 (wpx_mono (body name uidFound y here unseen) ?_))⟩
  intro res y' _ unseen'
  have prints : OnlyX Uncounted (inr (.result (toJson res)) .ok : MainM Unit) := onlyX_op trivial
  have tells : ∀ e, OnlyX Uncounted (tell (.errorResult e) : MainM Unit) := fun e => onlyX_op rfl
  have reports : OnlyX Uncounted (Util.handleResult env res) := by
    unfold Util.handleResult
    dsimp only
    split
    · apply onlyX_bind prints
      intro _
      cases res with
      | error e => exact onlyX_throw
      | ok v => exact onlyX_pure
    · cases res with
      | error e => exact onlyX_bind (tells e) fun _ => onlyX_throw
      | ok v => exact onlyX_pure
  exact counts_rest reports y' rfl unseen'

end Commands

/-! ## Every command -/

section Remaining

variable {uid limit : UInt32} {serves : Serves uid} {t : Tpm} {a : Auth} {c : PinCounters}
  {tag : TagState}

theorem sub_le_iff {used limit : UInt32} : limit - used ≤ limit ↔ used ≤ limit := by
  rw [UInt32.le_iff_toNat_le, UInt32.le_iff_toNat_le, UInt32.toNat_sub]
  have boundUsed := used.toNat_lt
  have boundLimit := limit.toNat_lt
  omega

/-- Without the sign bit the difference is right. -/
theorem right_of_low (reachable : PinCounters.Reachable limit c) (low : limit.toNat < 2 ^ 31)
    (shows_ : t.Shows serves ⟨.written a c, tag⟩) :
    Right serves t (AttemptInfo.fromPinData c.data) := by
  obtain ⟨rfl, count⟩ := reachable.bounded
  have below := UInt32.le_iff_toNat_le.1 count
  rw [fromPinData_low (by omega) low]
  refine ⟨sub_le_iff.2 count, a, c, tag, shows_, (allows_iff count).2 ?_⟩
  exact UInt32.toNat_sub_of_le _ _ count

/-- A host that is never asked. -/
def mutedHost : Handler HostCmd Console
  | .tell _, u => ((), u)
  | .result json, u => ((), u.prints json)
  | .flush, u => (.ok (), u)
  | .echo _, u => (.ok (), u)
  | .readLine, u => (.error [], u)
  | .masterKey _, u => (.error .permissionDenied, u)

theorem mutedHost_within : Within mutedHost id Console.any := by
  intro e u
  cases e with
  | masterKey op => exact ⟨rfl, rfl⟩
  | _ => exact rfl

/-- Root at a terminal, who asks for the user. -/
def rootAsks (uid : UInt32) : Env := ⟨0, 0, false, .default, fun _ => some uid, fun _ => none⟩

/-- The status of a user shows the difference as pinutil computes it. -/
theorem status_shows {keys : KeyStore} :
    ∃ events r x, (Util.main (rootAsks uid) (.status (some []))).run.Runs anyHost
        (t.put serves ⟨.written a c, tag⟩, .start keys) events r x ∧
      ∃ event ∈ events, event.before.1 = t.put serves ⟨.written a c, tag⟩ ∧
        event.op = .inr
          (.tell (.remainingAttempts
            ((AttemptInfo.fromPinData c.data).limit - (AttemptInfo.fromPinData c.data).used)
            (AttemptInfo.fromPinData c.data).limit)) := by
  let h := Tpm.exec.sum mutedHost
  have within := (Handler.within_faulty Tpm.exec fun _ => True).sum mutedHost_within
  have run := Prog.runs_run h.graph_within (Util.main (rootAsks uid) (.status (some []))).run
    (t.put serves ⟨.written a c, tag⟩, .start keys)
  refine ⟨_, _, _, run.mono ?_, run.judged (C := fun _ => True) (Q := fun _ y => y.2) ?_⟩
  · intro e x r y act
    have step := within e x
    rw [show (Tpm.exec.sum mutedHost) e x = (r, y) from act] at step
    exact step
  have goes : ∀ {α ε : Type} {x : Fallible UtilCmd ε α} {r : Except ε α} {s s' : Tpm × Console}
    {past : Prop} {P : Event UtilCmd (Tpm × Console) → Prop}
    {Q : Except ε α → (Tpm × Console) × Prop → Prop},
        exec h x s = (r, s') →
        (∀ past', (past → past') → Q r (s', past')) →
        wpx (Watching P h.graph) (fun _ => True) x Q (s, past) := by
    intro α ε x r s s' past P Q ends post
    refine Prog.wp_mono Prog.wp_watching_run ?_
    rintro r' ⟨left, past'⟩ - ⟨same, same', kept⟩
    obtain ⟨rfl, rfl⟩ := Prod.mk.inj (show ((exec h x s).1, (exec h x s).2) = (r, s') from ends)
    obtain rfl := same
    obtain rfl := same'
    exact post past' kept
  have info : exec h (Util.getAttemptInfo uid) (t.put serves ⟨.written a c, tag⟩, .start keys) =
      (.ok (some (AttemptInfo.fromPinData c.data)), t.put serves ⟨.written a c, tag⟩, .start keys) := by
    unfold Util.getAttemptInfo
    rw [exec_bind, show exec h (manage (getPinSlot uid)) _ = _ from exec_inl, exec_getPinSlot]
    rfl
  refine wpx_bind.2 ⟨trivial, wpx_bind.2 (wpx_attempt.2 (wpx_bind.2 ⟨trivial, wpx_bind.2 ?_⟩))⟩
  refine goes rfl fun _ _ => wpx_bind.2 (goes rfl fun _ _ => wpx_bind.2 (goes info fun _ _ => ?_))
  refine wpx_bind.2 (goes rfl fun _ _ => wpx_bind.2 ⟨trivial, ?_⟩)
  rintro r ⟨⟨t', u⟩, past⟩ ⟨-, seen⟩
  have now : past := by
    rw [show past = _ from seen]
    exact .inr ⟨rfl, rfl⟩
  refine ⟨trivial, wpx_bind.2 (goes rfl fun _ before => ⟨trivial, ?_⟩)⟩
  exact goes rfl fun _ later => later (before now)

/-- In every run every count that is shown is what the TPM allows, exactly for the limits
without the sign bit. -/
theorem attempts_counted_iff :
    (∀ (t : Tpm) (a : Auth) (tag : TagState) (c : PinCounters), PinCounters.Reachable limit c →
      ∀ (keys : KeyStore) (env : Env) (username : Option Str), env.Names username uid →
        ∀ command ∈ [Commands.status, .test, .change, .delete], ∀ events r x,
          (Util.main env (command username)).run.Runs anyHost
              (t.put serves ⟨.written a c, tag⟩, .start keys) events r x →
            ∀ event ∈ events, CountsRight serves event) ↔ limit.toNat < 2 ^ 31 := by
  constructor
  · intro right
    by_contra high
    have shown : (AttemptInfo.fromPinData (PinCounters.data ⟨0, limit⟩)).limit = 0 :=
      @fromPinData_high ⟨0, limit⟩ (Nat.not_lt.1 high)
    obtain ⟨events, r, x, run, event, member, here, op⟩ :=
      @status_shows uid serves Tpm.empty Auth.empty ⟨0, limit⟩ .absent ⟨none, none, none⟩
    have names : (rootAsks uid).Names (some []) uid := ⟨[], rfl, rfl⟩
    obtain ⟨-, a', c', tag', shows_, allows⟩ :=
      right _ _ _ _ .fresh _ _ _ names .status List.mem_cons_self _ _ _ run event member
      _ _ _ op rfl
    rw [here] at shows_
    cases shows_.unique Tpm.put_shows
    have used : (AttemptInfo.fromPinData (PinCounters.data ⟨0, limit⟩)).used = 0 := rfl
    rw [shown, used] at allows
    have locked : PinCounters.locked ⟨0, limit⟩ := allows.locked
    have zero : limit.toNat ≤ (0 : UInt32).toNat := UInt32.le_iff_toNat_le.1 locked
    rw [UInt32.toNat_zero] at zero
    omega
  · intro low t a tag c reachable keys env username names command member events r x run
    have right := right_of_low reachable low (@Tpm.put_shows uid t serves ⟨.written a c, tag⟩)
    have counts : Counts serves (t.put serves ⟨.written a c, tag⟩)
        (Util.main env (command username)) := by
      simp only [List.mem_cons, List.not_mem_nil, or_false] at member
      rcases member with rfl | rfl | rfl | rfl
      · exact counts_onUser names fun _ => showStatus_counts right Tpm.put_shows
      · exact counts_onUser names fun _ => testPin_counts right Tpm.put_shows
      · exact counts_onUser names fun _ => changePin_counts right Tpm.put_shows
      · exact counts_onUser names fun _ => deletePin_counts right Tpm.put_shows
    have none := run.judged (counts _ rfl id)
    intro event member
    by_contra wrong
    exact none ⟨event, member, wrong⟩

end Remaining

theorem attempts_counted_once :
    ∃ events r x, (Util.main (rootAsks 1000) (.status (some []))).run.Runs anyHost
        (Tpm.empty.put serves_thousand ⟨.written plainPin.auth ⟨1, 3⟩, .absent⟩,
          .start ⟨none, none, none⟩) events r x ∧
      ∀ event ∈ events, CountsRight serves_thousand event := by
  obtain ⟨events, r, x, run, -⟩ :=
    @status_shows 1000 serves_thousand Tpm.empty plainPin.auth ⟨1, 3⟩ .absent ⟨none, none, none⟩
  refine ⟨events, r, x, run, ?_⟩
  have reachable : PinCounters.Reachable 3 ⟨1, 3⟩ := .attempted false (by decide) .fresh
  exact attempts_counted_iff.2 (by decide) _ _ _ _ reachable _ _ _ ⟨[], rfl, rfl⟩ .status
    List.mem_cons_self _ _ _ run

/-- A policy is accepted under which the difference wraps after one wrong attempt. -/
theorem attempts_miscounted : ¬ ∀ (system : System) (config : Str) (policy : PinPolicy),
    PinPolicy.parseConfig system config = .ok policy →
      ∀ (t : Tpm) (a : Auth) (tag : TagState) (c : PinCounters),
        PinCounters.Reachable policy.maxAttempts c →
          ∀ (keys : KeyStore) (env : Env) (username : Option Str), env.Names username 1000 →
            ∀ command ∈ [Commands.status, .test, .change, .delete], ∀ events r x,
              (Util.main env (command username)).run.Runs anyHost
                  (t.put serves_thousand ⟨.written a c, tag⟩, .start keys) events r x →
                ∀ event ∈ events, CountsRight serves_thousand event := by
  intro claim
  have accepted : PinPolicy.parseConfig bareSystem "pin_lockout_max_attempts=2147483648".toList =
      .ok (limitedManager 2147483648).policy := by decide +kernel
  have reachable :
      PinCounters.Reachable (limitedManager 2147483648).policy.maxAttempts ⟨1, 2147483648⟩ :=
    .attempted false (by decide) .fresh
  obtain ⟨events, r, x, run, event, member, -, op⟩ :=
    @status_shows 1000 serves_thousand Tpm.empty Auth.empty ⟨1, 2147483648⟩ .absent ⟨none, none, none⟩
  obtain ⟨small, -⟩ :=
    claim _ _ _ accepted _ _ _ _ reachable _ _ _ ⟨[], rfl, rfl⟩
      .status List.mem_cons_self _ _ _ run event member
    _ _ _ op rfl
  exact absurd small (by decide)

end Pinpam
