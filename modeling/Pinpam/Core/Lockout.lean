import Pinpam.Core.Requests
import Pinpam.Core.Storage
import Pinpam.Core.Survival

/-!
# Lockout

The wrong PIN that brings the count to the limit is answered with `Invalid` and its
flag set. From then on the TPM refuses every value, and nothing but an administrative
deletion changes the slot; but what the manager makes of that refusal is an error of
the TPM, not the `LockedOut` that the flag announces.
-/

namespace Pinpam
set_option autoImplicit false
open Pinpam.Effect Pinpam.Effect.Fallible

/-! ## What a run shows -/

def Reply.Invalid (locked : Bool) (reply : Reply) : Prop :=
  reply = .verifyPin (.ok (.invalid locked)) ∨ reply = .deletePinWithAuth (.ok (.invalid locked))

def Reply.LockedOut (reply : Reply) : Prop :=
  reply = .verifyPin (.ok .lockedOut) ∨ reply = .deletePinWithAuth (.ok .lockedOut)

/-- The bytes a PIN is compared as: by the old rule where there is no tag. -/
def Account.reads (acc : Account) (pin : Pin) : Bytes :=
  if acc.tag.read = none then asBytes (normalizeLegacyPin pin.str) else asBytes pin.str

/-- An administrative deletion that removed the slot. -/
def Served.AdminDeletes (uid : UInt32) (x : Served) : Prop :=
  x.turn.request = .deletePinAdmin ∧ ∃ (serves : Serves uid) (acc : Account) (tag : TagState),
    x.before.Shows serves acc ∧ acc.slot ≠ .absent ∧ x.after.Shows serves ⟨.absent, tag⟩

/-- A turn that returned, with a PIN that the slot, which is not locked, does not accept. -/
structure Served.Misses (uid : UInt32) (x : Served) (pin : Pin) (a : Auth) (c : PinCounters)
    (tag : TagState) : Prop where
  returned : x.reply ≠ none
  presents : x.turn.request.presents = some pin
  slot : ∃ serves : Serves uid, x.before.Shows serves ⟨.written a c, tag⟩
  unlocked : ¬ c.locked
  wrong : ∀ c', ¬ Account.Accepts pin ⟨.written a c, tag⟩ c'

/-- The miss that uses up the last attempt. -/
def Served.Exhausts (uid : UInt32) (x : Served) : Prop :=
  ∃ pin a c tag, x.Misses uid pin a c tag ∧
  (Account.reads ⟨.written a c, tag⟩ pin).length ≤ authMaxSize ∧
    c.pinCount + 1 = c.pinLimit

/-- A lockout that was reported stays, and is reported as such; a miss is answered with
`Invalid` and with whether it locked the slot. -/
structure LockoutReported (uid : UInt32) (events : List Served) : Prop where
  permanent : ∀ pre x mid y post, events = pre ++ x :: (mid ++ y :: post) →
    (∃ r, x.reply = some r ∧ r.Invalid true) → (∀ z ∈ mid, ¬ z.AdminDeletes uid) →
      y.turn.request.presents ≠ none → ∀ r, y.reply = some r → r.LockedOut
  counted : ∀ y ∈ events, ∀ pin a c tag, y.Misses uid pin a c tag → ∃ r c', y.reply = some r ∧
    (∃ serves : Serves uid, y.after.Shows serves ⟨.written a c', tag⟩) ∧ r.Invalid (decide c'.locked)

/-- No PIN is presented between the miss that uses up the last attempt and the deletion of
the slot, nor a wrong one that is too long for the TPM's library. -/
structure Answerable (uid : UInt32) (events : List Served) : Prop where
  rests : ∀ pre x mid y post, events = pre ++ x :: (mid ++ y :: post) → x.Exhausts uid →
    (∀ z ∈ mid, ¬ z.AdminDeletes uid) → y.reply ≠ none → y.turn.request.presents = none
  fits : ∀ y ∈ events, ∀ pin a c tag, y.Misses uid pin a c tag →
    (Account.reads ⟨.written a c, tag⟩ pin).length ≤ authMaxSize

/-- The tag is one the manager writes, and the limit has no sign bit. -/
structure Account.Sound (acc : Account) : Prop where
  known : acc.tag.Known
  low : ∀ a c, acc.slot = .written a c → c.pinLimit.toNat < 2 ^ 31

section Lockout

variable {uid limit : UInt32} {serves : Serves uid} {t : Tpm} {acc acc' : Account} {pin : Pin}
  {m : PinManager} {a : Auth} {c : PinCounters} {tag : TagState} {request : Request} {turn : Turn}
  {n : Nat}

/-! ## Accounts of a run -/

theorem Account.SetsUp.sound (sets : acc.SetsUp pin limit acc') (sound : acc.Sound)
    (low : limit.toNat < 2 ^ 31) :
    acc'.Sound := by
  refine ⟨sets.known sound.known, ?_⟩
  cases sets with
  | start => exact sound.low
  | defined => exact nofun
  | stored =>
    rintro _ _ ⟨⟩
    exact low
  | rolledBack => exact nofun

theorem Account.Sound.compared {b : Auth} (sound : acc.Sound) (known : tag.Known) :
    Account.Sound ⟨acc.slot.compared b, tag⟩ := by
  refine ⟨known, fun a c written => ?_⟩
  obtain ⟨c', was, same⟩ := compared_limit written
  rw [same]
  exact sound.low a c' was

theorem Account.Verifies.sound (verifies : acc.Verifies uid pin limit acc') (sound : acc.Sound)
    (low : limit.toNat < 2 ^ 31) : acc'.Sound := by
  have known := verifies.known sound.known
  cases verifies with
  | start => exact sound
  | compared => exact sound.compared known
  | comparedLegacy => exact sound.compared known
  | migrates legacy hit migrates =>
    cases migrates with
    | start => exact sound.compared known
    | tagged => exact sound.compared known
    | @replaced _ _ tag was _ sets =>
      refine sets.sound ⟨?_, nofun⟩ low
      obtain rfl | rfl := was
      · exact sound.known
      · exact .inl rfl

theorem ManagerCall.Visits.sound {call : ManagerCall} (visits : call.Visits uid limit acc acc')
    (sound : acc.Sound) (low : limit.toNat < 2 ^ 31) : acc'.Sound := by
  have removed :
      ∀ {a : Account} {tag : TagState}, a.tag.Known → tag = a.tag ∨ tag = .absent →
      Account.Sound ⟨.absent, tag⟩ := by
    intro a tag known was
    refine ⟨?_, nofun⟩
    obtain rfl | rfl := was
    · exact known
    · exact .inl rfl
  cases visits with
  | setsUp sets => exact sets.sound sound low
  | verifies verifies => exact verifies.sound sound low
  | deletes deletes =>
    cases deletes with
    | verifies verifies => exact verifies.sound sound low
    | deleted verifies was => exact removed (verifies.known sound.known) was
  | kept => exact sound
  | removed was => exact removed sound.known was

/-- Every turn ends in an account its request passes through, killed or not. -/
theorem take_visits : ∃ a', turn.request.Visits uid turn.manager.policy.maxAttempts acc a' ∧
    (turn.take uid (t.put serves acc)).after = t.put serves a' :=
  take_of_wp (wp_request fun a' visits => ⟨a', visits, rfl⟩)

theorem take_sound (sound : acc.Sound) (low : turn.manager.policy.maxAttempts.toNat < 2 ^ 31)
    (shows_ : t.Shows serves acc) :
    ∃ a', (turn.take uid t).after.Shows serves a' ∧ a'.Sound := by
  rw [← shows_.eq_put]
  obtain ⟨a', visits, after⟩ := @take_visits uid serves t acc turn
  refine ⟨a', after ▸ Tpm.put_shows, ?_⟩
  generalize turn.request = request at visits
  cases visits with
  | calls visits => exact visits.sound sound low
  | isLockedOut => exact sound
  | getPinSlot => exact sound

/-! ## A locked slot -/

theorem locked_refuses (slot : acc.slot = .written a c) (locked : c.locked) :
    ¬ ∃ c', acc.Accepts pin c' := by
  rintro ⟨c', accepts⟩
  have same : ∀ {b}, acc.slot.Opens b c' → c' = c :=
    fun opens => (SlotState.written.inj (opens.written.symm.trans slot)).2
  obtain ⟨-, opens, -⟩ | ⟨-, opens, -⟩ := accepts
  · exact opens.unlocked (same opens ▸ locked)
  · exact opens.unlocked (same opens ▸ locked)

theorem verifies_locked (slot : acc.slot = .written a c) (locked : c.locked)
    (verifies : acc.Verifies uid pin limit acc') :
    acc' = acc := by
  have still : ∀ b, ({ acc with slot := acc.slot.compared b } : Account) = acc := by
    intro b
    rw [slot, compared_locked locked, ← slot]
  cases verifies with
  | start => rfl
  | compared => exact still _
  | comparedLegacy => exact still _
  | migrates legacy hit => exact absurd (accepts_of_hit legacy hit) (locked_refuses slot locked)

/-- Only an administrative deletion touches a locked slot, wherever the others are killed. -/
theorem locked_still (slot : acc.slot = .written a c) (locked : c.locked)
    (other : request ≠ .deletePinAdmin) :
    (request.program m uid).wp (Faulty Tpm.exec fun _ => False) (fun t' => t' = t.put serves acc)
      (fun _ t' => t' = t.put serves acc) (t.put serves acc) := by
  have verified :
      ∀ pin, wpx (Faulty Tpm.exec fun _ => False) (fun t' => t' = t.put serves acc)
        (m.verifyPin uid pin)
        (fun r t' => t' = t.put serves acc ∧ ∀ data, r ≠ .ok (.success data)) (t.put serves acc) := by
    intro pin
    have kept : ∀ a', acc.Verifies uid pin m.policy.maxAttempts a' → t.put serves a' =
        t.put serves acc :=
      fun a' verifies => congrArg _ (verifies_locked slot locked verifies)
    refine wpx_verifyPin kept ⟨kept _ verifies_result, ?_⟩ (fun _ _ _ _ _ no => no.elim)
      (fun _ _ _ _ _ _ _ _ no => no.elim)
      fun _ no => no.elim
    intro data success
    obtain ⟨c', accepts, -⟩ := verifyPin_success_iff.1 success
    exact locked_refuses slot locked ⟨c', accepts⟩
  cases request with
  | setupPin pin =>
    have kept : ∀ a', Request.Visits uid m.policy.maxAttempts acc (.setupPin pin) a' → a' = acc := by
      intro a' visits
      generalize same : Request.setupPin pin = request at visits
      cases visits with
      | @calls call _ visits =>
        cases visits with
        | setsUp sets =>
          have taken : ∀ {q : Pin}, Account.refusal (asBytes q.str) acc.slot ≠ none := by
            intro q fresh
            have absent := (refusal_eq_none.1 fresh).2.1
            rw [slot] at absent
            cases absent
          cases sets with
          | start => rfl
          | defined fresh => exact absurd fresh taken
          | stored fresh => exact absurd fresh taken
          | rolledBack fresh => exact absurd fresh taken
        | verifies => cases same
        | deletes => cases same
        | kept => rfl
        | removed => cases same
      | isLockedOut => rfl
      | getPinSlot => rfl
    refine Prog.wp_mono (wp_request fun a' visits => congrArg _ (kept a' visits)) ?_
    intro _ _ same _
    exact same
  | verifyPin pin => exact Prog.wp_seq (verified pin) fun r t' same post => ⟨same, same⟩
  | deletePinWithAuth pin =>
    have refused :
        wpx (Faulty Tpm.exec fun _ => False) (fun t' => t' = t.put serves acc)
          (m.deletePinWithAuth uid pin)
          (fun _ t' => t' = t.put serves acc) (t.put serves acc) := by
      unfold PinManager.deletePinWithAuth
      refine wpx_seq (verified pin) ?_ fun _ _ same _ => same
      rintro v t' same ⟨-, fails⟩
      cases v with
      | success data => exact absurd rfl (fails data)
      | invalid => exact ⟨same, same⟩
      | lockedOut => exact ⟨same, same⟩
    exact Prog.wp_seq refused fun r t' same post => ⟨same, same⟩
  | deletePinAdmin => exact absurd rfl other
  | isLockedOut =>
    have read := @wpx_isLockedOut uid serves t acc (fun _ => False) (fun t' => t' = t.put serves acc)
        (fun _ _ => True) rfl
      trivial fun no => no.elim
    exact Prog.wp_seq read fun r t' same _ => ⟨same, same⟩
  | getPinSlot =>
    have read := @wpx_getPinSlot (fun _ => False) (fun t' => t' = t.put serves acc) t uid serves acc
        (fun _ _ => True) rfl
      trivial fun no => no.elim
    exact Prog.wp_seq read fun r t' same _ => ⟨same, same⟩

/-- A turn that does not delete a locked slot leaves it as it is. -/
theorem take_locked (slot : acc.slot = .written a c) (locked : c.locked) (shows_ : t.Shows serves acc)
    (kept : ¬ (turn.take uid t).AdminDeletes uid) : (turn.take uid t).after.Shows serves acc := by
  by_cases admin : turn.request = .deletePinAdmin
  · rw [← shows_.eq_put] at kept ⊢
    obtain ⟨a', visits, after⟩ := @take_visits uid serves t acc turn
    rw [after]
    have gone : ∀ tag, a' ≠ ⟨.absent, tag⟩ := by
      rintro tag rfl
      refine kept ⟨by rw [take_turn]; exact admin, serves, acc, tag, ?_, ?_, after ▸ Tpm.put_shows⟩
      · rw [take_before]
        exact Tpm.put_shows
      · rw [slot]
        exact nofun
    rw [admin] at visits
    generalize same : Request.deletePinAdmin = request at visits
    cases visits with
    | calls visits =>
      cases visits with
      | kept => exact Tpm.put_shows
      | removed => exact absurd rfl (gone _)
      | setsUp => cases same
      | verifies => cases same
      | deletes => cases same
    | isLockedOut => cases same
    | getPinSlot => cases same
  · have still := @locked_still uid serves t acc turn.manager a c turn.request slot locked admin
    rw [shows_.eq_put] at still
    rw [take_of_wp still]
    exact shows_

/-! ## Replies -/

section Replies

variable {e : PinError} {locked : Bool}

theorem serve_error (presents : request.presents = some pin)
    (failed : (acc.verifyPin uid pin limit).1 = .error e) :
    (acc.serve uid limit request).1 = request.refused e := by
  cases verified : acc.verifyPin uid pin limit with
  | mk r a' =>
    rw [verified] at failed
    obtain rfl := failed
    cases request with
    | verifyPin q =>
      cases presents
      simp only [Account.serve, verified, Prod.map, Request.refused]
    | deletePinWithAuth q =>
      cases presents
      simp only [Account.serve, Account.deletePinWithAuth, verified, Prod.map, Request.refused]
    | _ => cases presents

theorem serve_invalid (presents : request.presents = some pin)
    (invalid : acc.verifyPin uid pin limit = (.ok (.invalid locked), acc')) :
    ∃ r, acc.serve uid limit request = (r, acc') ∧ r.Invalid locked := by
  cases request with
  | verifyPin q =>
    cases presents
    simp only [Account.serve, invalid, Prod.map]
    exact ⟨_, rfl, .inl rfl⟩
  | deletePinWithAuth q =>
    cases presents
    simp only [Account.serve, Account.deletePinWithAuth, invalid, Prod.map]
    exact ⟨_, rfl, .inr rfl⟩
  | _ => cases presents

/-- `Invalid` comes from a comparison. -/
theorem invalid_of_serve (invalid : (acc.serve uid limit request).1.Invalid locked) :
    ∃ pin, request.presents = some pin ∧ (acc.verifyPin uid pin limit).1 = .ok (.invalid locked) := by
  cases request with
  | verifyPin pin =>
    refine ⟨pin, rfl, ?_⟩
    rcases invalid with same | same
    · exact Reply.verifyPin.inj same
    · cases same
  | deletePinWithAuth pin =>
    refine ⟨pin, rfl, ?_⟩
    rcases invalid with same | same
    · cases same
    have told := Reply.deletePinWithAuth.inj same
    cases verified : acc.verifyPin uid pin limit with
    | mk r a' =>
      rw [verified] at told
      match r with
      | .ok (.success _) =>
        dsimp only at told
        cases gone : (a'.deletePinAdmin uid).1 with
        | ok => rw [gone] at told; cases told
        | error => rw [gone] at told; cases told
      | .ok (.invalid _) =>
        cases told
        rfl
      | .ok .lockedOut => cases told
      | .error _ => cases told
  | _ => rcases invalid with same | same <;> cases same

theorem refused_not_invalid : ¬ (request.refused e).Invalid locked := by
  rintro (same | same) <;> cases request <;> cases same

theorem refused_not_lockedOut : ¬ (request.refused e).LockedOut := by
  rintro (same | same) <;> cases request <;> cases same

end Replies

/-- Without a success the verification is one comparison. -/
theorem verifyPin_wrong (known : acc.tag.Known) (wrong : ¬ ∃ c, acc.Accepts pin c) :
    acc.verifyPin uid pin limit = acc.verifyPinExact uid (acc.reads pin) := by
  unfold Account.reads
  rcases known with legacy | current
  · rw [if_pos legacy]
    apply verifyPin_legacy_fails legacy
    intro data success
    exact wrong (accepts_of_hit legacy success)
  · rw [if_neg (by rw [current]; exact nofun)]
    exact verifyPin_current current

/-- A value that is too long, and one that the TPM no longer compares, end in an error. -/
theorem verifyPin_long (known : acc.tag.Known) (slot : acc.slot = .written a c)
    (wrong : ¬ ∃ c, acc.Accepts pin c) (long : authMaxSize < (acc.reads pin).length) :
    (acc.verifyPin uid pin limit).1 = .error (.ofTss (.wrapper .wrongParamSize)) := by
  rw [verifyPin_wrong known wrong, Account.verifyPinExact, if_pos ⟨by simp [slot], long⟩]

theorem verifyPin_locked (known : acc.tag.Known) (slot : acc.slot = .written a c) (locked : c.locked) :
    ∃ e, (acc.verifyPin uid pin limit).1 = .error e := by
  have wrong := @locked_refuses acc pin a c slot locked
  by_cases long : authMaxSize < (acc.reads pin).length
  · exact ⟨_, verifyPin_long known slot wrong long⟩
  · rw [verifyPin_wrong known wrong, Account.verifyPinExact, if_neg fun both => long both.2, slot]
    simp only [SlotState.verdict, if_pos locked]
    exact ⟨_, rfl⟩

/-- The account accepts a PIN by the bytes that it reads it as. -/
theorem accepts_iff (known : acc.tag.Known) : acc.Accepts pin c ↔
    acc.slot.Opens (.ofBytes (acc.reads pin)) c ∧ (acc.reads pin).length ≤ authMaxSize := by
  unfold Account.reads
  rcases known with legacy | current
  · rw [if_pos legacy]
    constructor
    · rintro (⟨tag, -, -⟩ | ⟨-, opens, short⟩)
      · cases legacy.symm.trans tag
      · exact ⟨opens, short⟩
    · exact fun ⟨opens, short⟩ => .legacy legacy opens short
  · rw [if_neg (by rw [current]; exact nofun)]
    constructor
    · rintro (⟨-, opens, short⟩ | ⟨tag, -, -⟩)
      · exact ⟨opens, short⟩
      · cases current.symm.trans tag
    · exact fun ⟨opens, short⟩ => .current current opens short

/-- A miss counts, and says whether it was the last. -/
theorem verifyPin_miss (sound : acc.Sound) (slot : acc.slot = .written a c) (unlocked : ¬ c.locked)
    (wrong : ¬ ∃ c, acc.Accepts pin c) (short : (acc.reads pin).length ≤ authMaxSize) :
    acc.verifyPin uid pin limit =
      (.ok (.invalid (decide (c.after false).locked)),
        { acc with slot := .written a (c.after false) }) := by
  have low := sound.low a c slot
  have other : Auth.ofBytes (acc.reads pin) ≠ a := by
    rintro rfl
    exact wrong ⟨c, (accepts_iff sound.known).2 ⟨⟨slot, unlocked, low⟩, short⟩⟩
  have below := UInt32.lt_iff_toNat_lt.1 (UInt32.not_le.1 unlocked)
  have count : (c.after false).pinCount.toNat < 2 ^ 31 := by
    show (c.pinCount + 1).toNat < 2 ^ 31
    rw [UInt32.toNat_add, UInt32.toNat_one]
    omega
  rw [verifyPin_wrong sound.known wrong, Account.verifyPinExact,
    if_neg fun both => absurd short (Nat.not_le.2 both.2), slot,
    verdict_miss unlocked other, compared_miss unlocked other, PinCounters.atLimit_data count low]

theorem last_attempt (unlocked : ¬ c.locked) :
    (c.after false).locked ↔ c.pinCount + 1 = c.pinLimit := by
  have below := UInt32.lt_iff_toNat_lt.1 (UInt32.not_le.1 unlocked)
  have bound := c.pinLimit.toNat_lt
  have next : (c.pinCount + 1).toNat = c.pinCount.toNat + 1 := by
    rw [UInt32.toNat_add, UInt32.toNat_one]
    omega
  show c.pinLimit ≤ c.pinCount + 1 ↔ _
  rw [UInt32.le_iff_toNat_le, ← UInt32.toNat_inj, next]
  omega

/-! ## Turns -/

section Turns

variable {x : Served} {reply : Reply}

/-- A turn that returned gives the reply of the account. -/
theorem taken_reply (taken : x = turn.take uid x.before) (shows_ : x.before.Shows serves acc)
    (returned : x.reply ≠ none) :
    x.reply = some (acc.serve uid x.turn.manager.policy.maxAttempts x.turn.request).1 ∧
      x.after.Shows serves (acc.serve uid x.turn.manager.policy.maxAttempts x.turn.request).2 := by
  obtain ⟨reply, replied⟩ := Option.ne_none_iff_exists'.1 returned
  have same : x.turn = turn := by rw [taken, take_turn]
  have run := take_replied (taken ▸ replied)
  rw [← taken, ← same] at run
  conv_lhs at run => rw [← shows_.eq_put]
  rw [run_request] at run
  obtain ⟨first, second⟩ := Prod.mk.inj run
  exact ⟨replied.trans (congrArg some first.symm), second ▸ Tpm.put_shows⟩

theorem Served.Misses.account (misses : x.Misses uid pin a c tag) (shows_ : x.before.Shows serves acc) :
    acc = ⟨.written a c, tag⟩ := by
  obtain ⟨_, shown⟩ := misses.slot
  exact shows_.unique shown

/-- A miss that the library can send. -/
theorem Served.Misses.short (misses : x.Misses uid pin a c tag) (taken : x = turn.take uid x.before)
    (shows_ : x.before.Shows serves acc) (sound : acc.Sound)
    (short : (Account.reads ⟨.written a c, tag⟩ pin).length ≤ authMaxSize) :
    ∃ r, x.reply = some r ∧ x.after.Shows serves ⟨.written a (c.after false), tag⟩ ∧
      r.Invalid (decide (c.after false).locked) := by
  obtain rfl := misses.account shows_
  have wrong : ¬ ∃ c', Account.Accepts pin ⟨.written a c, tag⟩ c' :=
    fun ⟨c', accepts⟩ => misses.wrong c' accepts
  obtain ⟨r, served, invalid⟩ := serve_invalid misses.presents
    (@verifyPin_miss uid x.turn.manager.policy.maxAttempts _ pin a c sound rfl
      misses.unlocked wrong short)
  obtain ⟨replied, after⟩ := taken_reply taken shows_ misses.returned
  rw [served] at replied after
  exact ⟨r, replied, after, invalid⟩

/-- One that it cannot send. -/
theorem Served.Misses.long (misses : x.Misses uid pin a c tag) (taken : x = turn.take uid x.before)
    (shows_ : x.before.Shows serves acc) (sound : acc.Sound)
    (long : authMaxSize < (Account.reads ⟨.written a c, tag⟩ pin).length) :
    ∃ e, x.reply = some (x.turn.request.refused e) := by
  obtain rfl := misses.account shows_
  have wrong : ¬ ∃ c', Account.Accepts pin ⟨.written a c, tag⟩ c' :=
    fun ⟨c', accepts⟩ => misses.wrong c' accepts
  have failed :=
    @verifyPin_long uid x.turn.manager.policy.maxAttempts _ pin a c sound.known rfl wrong long
  obtain ⟨replied, -⟩ := taken_reply taken shows_ misses.returned
  rw [serve_error misses.presents failed] at replied
  exact ⟨_, replied⟩

/-- Whatever is presented to a locked slot ends in an error. -/
theorem locked_reply (taken : x = turn.take uid x.before) (shows_ : x.before.Shows serves acc)
    (sound : acc.Sound) (slot : acc.slot = .written a c) (locked : c.locked)
    (presents : x.turn.request.presents = some pin) (replied : x.reply = some reply) :
    ¬ reply.LockedOut := by
  obtain ⟨e, failed⟩ :=
    @verifyPin_locked uid x.turn.manager.policy.maxAttempts acc pin a c sound.known slot locked
  obtain ⟨told, -⟩ := taken_reply taken shows_ (by rw [replied]; exact nofun)
  rw [serve_error presents failed, replied] at told
  rw [Option.some.inj told]
  exact refused_not_lockedOut

/-- An `Invalid` with its flag was a miss, the last one. -/
theorem exhausts_of_invalid (taken : x = turn.take uid x.before)
    (shows_ : x.before.Shows serves acc) (sound : acc.Sound) (replied : x.reply = some reply)
    (invalid : reply.Invalid true) : x.Exhausts uid := by
  have returned : x.reply ≠ none := by
    rw [replied]
    exact nofun
  obtain ⟨told, -⟩ := taken_reply taken shows_ returned
  rw [replied] at told
  rw [Option.some.inj told] at invalid
  obtain ⟨pin, presents, verified⟩ := invalid_of_serve invalid
  have wrong : ¬ ∃ c', acc.Accepts pin c' := by
    rintro ⟨c', accepts⟩
    rw [accepts.success] at verified
    cases verified
  have exact := verified
  rw [verifyPin_wrong sound.known wrong] at exact
  obtain ⟨slot, tag⟩ := acc
  cases slot with
  | absent =>
    unfold Account.verifyPinExact at exact
    rw [if_neg fun both => both.1 rfl] at exact
    cases exact
  | unwritten b =>
    unfold Account.verifyPinExact at exact
    split at exact <;> cases exact
  | written a c =>
    by_cases locked : c.locked
    · obtain ⟨e, failed⟩ :=
        @verifyPin_locked uid x.turn.manager.policy.maxAttempts _ pin a c sound.known rfl locked
      rw [verified] at failed
      cases failed
    by_cases long : authMaxSize < (Account.reads ⟨.written a c, tag⟩ pin).length
    · rw [verifyPin_long sound.known rfl wrong long] at verified
      cases verified
    have short := Nat.not_lt.1 long
    rw [verifyPin_miss sound rfl locked wrong short] at verified
    have last := VerificationResult.invalid.inj (Except.ok.inj verified)
    exact ⟨pin, a, c, tag,
      ⟨returned, presents, ⟨serves, shows_⟩, locked, fun c' accepts => wrong ⟨c', accepts⟩⟩, short,
      (last_attempt locked).1 (of_decide_eq_true last)⟩

/-- From the last miss until the slot is deleted it stays locked. -/
theorem locked_until {turns : List Turn} {mid post : List Served} {y : Served}
    (slot : acc.slot = .written a c) (locked : c.locked) (shows_ : t.Shows serves acc)
    (split : serve uid turns t = mid ++ y :: post) (kept : ∀ z ∈ mid, ¬ z.AdminDeletes uid) :
    y.before.Shows serves acc := by
  induction mid generalizing turns t with
  | nil =>
    cases turns with
    | nil => cases split
    | cons turn turns =>
      obtain ⟨rfl, -⟩ := List.cons.inj split
      rw [take_before]
      exact shows_
  | cons z mid ih =>
    cases turns with
    | nil => cases split
    | cons turn turns =>
      obtain ⟨rfl, rest⟩ := List.cons.inj split
      apply ih _ rest fun z member => kept z (List.mem_cons_of_mem _ member)
      exact take_locked slot locked shows_ (kept _ List.mem_cons_self)

/-- Only a uid that has an index is ever told `Invalid`. -/
theorem serves_of_invalid {locked : Bool} (taken : x = turn.take uid x.before)
    (replied : x.reply = some reply) (invalid : reply.Invalid locked) : Serves uid := by
  by_contra past
  have run := take_replied (taken ▸ replied)
  rw [request_overflow past] at run
  obtain ⟨rfl, -⟩ := Prod.mk.inj run
  exact refused_not_invalid invalid

end Turns

section Run

variable {turns : List Turn}

/-- The user's indices are in account form, the tag and the limit as a run leaves them. -/
def Tpm.Sound (t : Tpm) (uid : UInt32) : Prop :=
  ∀ serves : Serves uid, ∃ acc, t.Shows serves acc ∧ acc.Sound

/-- In a run whose policies have no sign bit lockouts are reported as promised exactly if
no PIN is presented to the slot once it is locked, and no wrong one that is too long. -/
theorem lockout_reported_iff (start : t.Sound uid)
    (policies : ∀ turn ∈ turns, turn.manager.policy.maxAttempts.toNat < 2 ^ 31) :
    LockoutReported uid (serve uid turns t) ↔ Answerable uid (serve uid turns t) := by
  have keeps : ∀ turn ∈ turns, ∀ t, Tpm.Sound t uid → Tpm.Sound (turn.take uid t).after uid := by
    intro turn member t sound serves
    obtain ⟨acc, shows_, held⟩ := sound serves
    exact take_sound held (policies turn member) shows_
  have turn_at :
      ∀ y ∈ serve uid turns t, ∃ turn : Turn, y.before.Sound uid ∧ y = turn.take uid y.before := by
    intro y member
    obtain ⟨pre, post, split⟩ := List.append_of_mem member
    obtain ⟨turn, -, held, taken, -⟩ := serve_split keeps start split
    exact ⟨turn, held, taken⟩
  -- after the last miss the slot is locked, at every turn up to its deletion
  have stays : ∀ pre x mid y post, serve uid turns t = pre ++ x :: (mid ++ y :: post) → x.Exhausts uid →
      (∀ z ∈ mid, ¬ z.AdminDeletes uid) → (∃ r, x.reply = some r ∧ r.Invalid true) ∧
        ∀ pin r, y.turn.request.presents = some pin → y.reply = some r → ¬ r.LockedOut := by
    intro pre x mid y post split exhausts kept
    obtain ⟨turn, -, held, taken, later, -, rest⟩ := serve_split keeps start split
    obtain ⟨pin, a, c, tag, misses, short, last⟩ := exhausts
    obtain ⟨serves, shown⟩ := misses.slot
    obtain ⟨acc, shows_, sound⟩ := held serves
    obtain ⟨r, replied, after, invalid⟩ := misses.short taken shows_ sound short
    have locked := (last_attempt misses.unlocked).2 last
    rw [decide_eq_true locked] at invalid
    refine ⟨⟨r, replied, invalid⟩, ?_⟩
    have member : y ∈ serve uid turns t := by
      rw [split]
      simp
    obtain ⟨turn', held', taken'⟩ := turn_at y member
    have still := locked_until rfl locked after rest.symm kept
    obtain ⟨acc', shows', sound'⟩ := held' serves
    obtain rfl := shows'.unique still
    exact fun pin r presents replied => locked_reply taken' still sound' rfl locked presents replied
  constructor
  · intro reported
    constructor
    · intro pre x mid y post split exhausts kept returned
      obtain ⟨told, silent⟩ := stays pre x mid y post split exhausts kept
      cases presents : y.turn.request.presents with
      | none => rfl
      | some pin =>
        obtain ⟨r, replied⟩ := Option.ne_none_iff_exists'.1 returned
        have promised := reported.permanent pre x mid y post split told kept (by
          rw [presents]; exact nofun) r replied
        exact absurd promised (silent pin r presents replied)
    · intro y member pin a c tag misses
      by_contra long
      obtain ⟨turn, held, taken⟩ := turn_at y member
      obtain ⟨serves, -⟩ := misses.slot
      obtain ⟨acc, shows_, sound⟩ := held serves
      obtain ⟨e, told⟩ := misses.long taken shows_ sound (Nat.not_le.1 long)
      obtain ⟨r, c', replied, -, invalid⟩ := reported.counted y member pin a c tag misses
      rw [told] at replied
      rw [← Option.some.inj replied] at invalid
      exact refused_not_invalid invalid
  · intro answerable
    constructor
    · intro pre x mid y post split told kept presents r replied
      obtain ⟨r', told, invalid⟩ := told
      have member : x ∈ serve uid turns t := by
        rw [split]
        simp
      obtain ⟨turn, held, taken⟩ := turn_at x member
      obtain ⟨acc, shows_, sound⟩ := held (serves_of_invalid taken told invalid)
      have exhausts := exhausts_of_invalid taken shows_ sound told invalid
      exact absurd (answerable.rests pre x mid y post split exhausts kept (by
        rw [replied]; exact nofun)) presents
    · intro y member pin a c tag misses
      obtain ⟨turn, held, taken⟩ := turn_at y member
      obtain ⟨serves, -⟩ := misses.slot
      obtain ⟨acc, shows_, sound⟩ := held serves
      obtain ⟨r, replied, after, invalid⟩ :=
        misses.short taken shows_ sound (answerable.fits y member pin a c tag misses)
      exact ⟨r, c.after false, replied, ⟨serves, after⟩, invalid⟩

/-- A wrong PIN on a slot with one attempt left, and then its own PIN. -/
def lastTurns : List Turn :=
  [⟨defaultManager, .verifyPin chosenPin, none⟩, ⟨defaultManager, .verifyPin plainPin, none⟩]

def lastAccount : Account := ⟨.written plainPin.auth ⟨2, 3⟩, .version PIN_VERSION_CURRENT⟩

theorem lastAccount_sound : (Tpm.empty.put serves_thousand lastAccount).Sound 1000 := by
  intro serves
  refine ⟨lastAccount, Tpm.put_shows, .inr rfl, ?_⟩
  rintro a c ⟨⟩
  decide

/-- The lockout as it was meant fails: the flag is set, and the next call is answered with
an error of the TPM. -/
theorem lockout_unreported : ¬ ∀ (uid : UInt32) (turns : List Turn) (t : Tpm), t.Sound uid →
    (∀ turn ∈ turns, 1 ≤ turn.manager.policy.maxAttempts.toNat ∧
      turn.manager.policy.maxAttempts.toNat < 2 ^ 31) →
      LockoutReported uid (serve uid turns t) := by
  intro claim
  have reported := claim 1000 lastTurns _ lastAccount_sound (by
    intro turn member
    simp only [lastTurns, List.mem_cons, List.not_mem_nil, or_false] at member
    obtain rfl | rfl := member <;> decide)
  have first : lastAccount.serve 1000 3 (.verifyPin chosenPin) =
      (.verifyPin (.ok (.invalid true)),
        ⟨.written plainPin.auth ⟨3, 3⟩, .version PIN_VERSION_CURRENT⟩) := by decide +kernel
  have second : (Account.serve 1000 3 ⟨.written plainPin.auth ⟨3, 3⟩, .version PIN_VERSION_CURRENT⟩
      (.verifyPin plainPin)).1 =
        .verifyPin (.error (.ofTss (.tss2 (some .authUnavailable)))) := by decide +kernel
  have events : serve 1000 lastTurns (Tpm.empty.put serves_thousand lastAccount) =
      [] ++ Turn.take ⟨defaultManager, .verifyPin chosenPin, none⟩ 1000
          (Tpm.empty.put serves_thousand lastAccount) ::
        ([] ++ Turn.take ⟨defaultManager, .verifyPin plainPin, none⟩ 1000
            (Tpm.empty.put serves_thousand
              ⟨.written plainPin.auth ⟨3, 3⟩, .version PIN_VERSION_CURRENT⟩) :: []) := by
    have after : (Turn.take ⟨defaultManager, .verifyPin chosenPin, none⟩ 1000
        (Tpm.empty.put serves_thousand lastAccount)).after = Tpm.empty.put serves_thousand
          ⟨.written plainPin.auth ⟨3, 3⟩, .version PIN_VERSION_CURRENT⟩ := by
      rw [take_whole, show lastAccount.serve 1000 defaultManager.policy.maxAttempts _ = _ from first]
    simp only [lastTurns, serve, after, List.nil_append]
  have told := reported.permanent _ _ _ _ _ events
    ⟨.verifyPin (.ok (.invalid true)), by
      rw [take_whole, show lastAccount.serve 1000 defaultManager.policy.maxAttempts _ = _ from first],
      .inl rfl⟩
    (by rintro _ ⟨⟩) (by rintro ⟨⟩) (.verifyPin (.error (.ofTss (.tss2 (some .authUnavailable)))))
    (by
      rw [take_whole]
      exact congrArg some second)
  rcases told with same | same <;> cases same

/-- A run of one miss is answered as promised. -/
theorem lockout_reported_once : LockoutReported 1000
    (serve 1000 [⟨defaultManager, .verifyPin chosenPin, none⟩]
      (Tpm.empty.put serves_thousand lastAccount)) := by
  apply (lockout_reported_iff lastAccount_sound (by
    intro turn member
    rw [List.mem_singleton.1 member]
    decide)).2
  constructor
  · intro pre x mid y post split
    have sizes := congrArg List.length split
    simp [serve] at sizes
    omega
  · intro y member pin a c tag misses
    have presents := misses.presents
    rw [List.mem_singleton.1 member, take_turn] at presents
    obtain rfl := Option.some.inj presents
    unfold Account.reads
    split <;> decide +kernel

end Run

end Lockout

end Pinpam
