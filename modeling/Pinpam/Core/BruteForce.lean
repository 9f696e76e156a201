import Pinpam.Effect.Schedule
import Pinpam.Core.Calls

/-!
# Guessing a PIN

A slot that was set up can be attacked by any number of processes, each a call of the
manager or a raw command on the slot, interleaved command by command. Every guess the
TPM compares is paid for with one step of the count, which stops at the limit.
-/

namespace Pinpam
set_option autoImplicit false
open Pinpam.Effect Pinpam.Effect.Fallible

/-- The TPM compares the `authValue` the command presents with that of the index. -/
def Tpm.compares (t : Tpm) (i : NvIndexTpmHandle) (c : NvCmd) : Bool :=
  match c, t.nv i with
  | .nvRead (.index _) j _ _, some x => decide (j = i) && x.attributes.authRead && x.unavailable.isNone
  | .nvWrite (.index _) j _ _, some x =>
    decide (j = i) && x.attributes.authWrite && x.unavailable.isNone
  | _, _ => false

/-- A command that makes, removes or fills the index, and was answered. -/
inductive Rebuilds (i : NvIndexTpmHandle) : Event NvCmd Tpm → Prop where
  | undefined (before after : Tpm) : Rebuilds i ⟨before, .nvUndefineSpace i, .ok (), after⟩
  | defined (before after : Tpm) (auth : Auth) {pub : NvPublic} (named : pub.nvIndex = i) :
      Rebuilds i ⟨before, .nvDefineSpace auth pub, .ok (), after⟩
  | written (before after : Tpm) (auth : NvAuth) (data : Bytes) (offset : Nat) :
      Rebuilds i ⟨before, .nvWrite auth i data offset, .ok (), after⟩

theorem not_rebuilds_nvRead {i j : NvIndexTpmHandle} {before after : Tpm} {auth : NvAuth}
    {size offset : Nat} {r : Except TssError Bytes} :
    ¬ Rebuilds i ⟨before, .nvRead auth j size offset, r, after⟩ := by
  rintro ⟨⟩

/-- What an adversary may start. -/
inductive Attempt where
  | call (m : PinManager) (call : ManagerCall)
  | raw (c : NvCmd)

def Attempt.program (uid : UInt32) : Attempt → PinM Unit
  | .call m made => made.program m uid
  | .raw c => do
    let _ ← ofTss (tpm c)
    pure ()

section BruteForce

variable {uid : UInt32}

/-- Attempts without the PIN `p`: calls with another PIN, and reads and writes of the
slot under any authorization but its own `authValue`. -/
inductive Attempt.Without (serves : Serves uid) (p : Pin) : Attempt → Prop where
  | setupPin (m : PinManager) {q : Pin} (free : '\x00' ∉ q.str) (other : q ≠ p) :
      Without serves p (.call m (.setupPin q))
  | verifyPin (m : PinManager) {q : Pin} (free : '\x00' ∉ q.str) (other : q ≠ p) :
      Without serves p (.call m (.verifyPin q))
  | deletePinWithAuth (m : PinManager) {q : Pin} (free : '\x00' ∉ q.str) (other : q ≠ p) :
      Without serves p (.call m (.deletePinWithAuth q))
  | nvRead {auth : NvAuth} (other : auth ≠ .index p.auth) (size offset : Nat) :
      Without serves p (.raw (.nvRead auth (slotHandle uid serves) size offset))
  | nvWrite {auth : NvAuth} (other : auth ≠ .index p.auth) (data : Bytes) (offset : Nat) :
      Without serves p (.raw (.nvWrite auth (slotHandle uid serves) data offset))

/-! ## The invariant -/

/-- A written tag that says the current format, or nothing readable. -/
def NvIndex.Tagged (x : NvIndex) : Prop :=
  ∃ size rest, x.area = .ordinary size (some (PIN_VERSION_CURRENT :: rest))

/-- The slot of `p` with `limit`, and its tag. -/
structure Guarded (serves : Serves uid) (p : Pin) (limit : UInt32) (x : NvIndex) (t : Tpm) : Prop where
  slot : ∃ count, count ≤ limit ∧ t.nv (slotHandle uid serves) =
    some (slotIndex p.auth (some ⟨count, limit⟩))
  tag : t.nv (tagHandle uid serves) = some x

/-- An event in which the slot stays, and the count is one higher exactly if a guess
was compared. -/
structure Paid (serves : Serves uid) (p : Pin) (limit : UInt32) (event : Event NvCmd Tpm) : Prop where
  counts : ∃ c c', event.before.nv (slotHandle uid serves) = some (slotIndex p.auth (some ⟨c, limit⟩)) ∧
    event.after.nv (slotHandle uid serves) = some (slotIndex p.auth (some ⟨c', limit⟩)) ∧
    c'.toNat = c.toNat + (event.before.compares (slotHandle uid serves) event.op).toNat
  kept : ¬ Rebuilds (slotHandle uid serves) event

variable {serves : Serves uid} {p : Pin} {limit : UInt32} {x : NvIndex} {t : Tpm}

/-- One command of an attempt, from any state of the invariant. -/
def Harmless (serves : Serves uid) (p : Pin) (limit : UInt32) (x : NvIndex) (c : NvCmd) : Prop :=
  ∀ t, Guarded serves p limit x t →
    Paid serves p limit ⟨t, c, (Tpm.exec c t).1, (Tpm.exec c t).2⟩ ∧
    Guarded serves p limit x (Tpm.exec c t).2

/-- A command that changes nothing and compares nothing. -/
theorem Guarded.still {c : NvCmd} (guarded : Guarded serves p limit x t) (same : (Tpm.exec c t).2 = t)
    (blind : t.compares (slotHandle uid serves) c = false)
    (kept : ¬ Rebuilds (slotHandle uid serves) ⟨t, c, (Tpm.exec c t).1, (Tpm.exec c t).2⟩) :
    Paid serves p limit ⟨t, c, (Tpm.exec c t).1, (Tpm.exec c t).2⟩ ∧
    Guarded serves p limit x (Tpm.exec c t).2 := by
  obtain ⟨⟨count, low, slot⟩, tag⟩ := guarded
  constructor
  · refine ⟨⟨count, count, slot, ?_, ?_⟩, kept⟩
    · rw [same]
      exact slot
    · show count.toNat = count.toNat + (t.compares _ c).toNat
      rw [blind]
      rfl
  · rw [same]
    exact ⟨⟨count, low, slot⟩, tag⟩

theorem quiet_harmless {c : NvCmd} (quiet : c.Quiet) : Harmless serves p limit x c := by
  intro t guarded
  apply guarded.still (exec_quiet quiet)
  · cases c with
    | nvRead auth i size offset =>
      cases auth with
      | index a => exact quiet.elim
      | _ => rfl
    | nvWrite => exact quiet.elim
    | _ => rfl
  · intro rebuilds
    cases c with
    | nvUndefineSpace => exact quiet.elim
    | nvDefineSpace => exact quiet.elim
    | nvWrite => exact quiet.elim
    | _ => cases rebuilds

/-- The slot is written, so the policy of its one write no longer holds. -/
theorem nvWrite_harmless {auth : NvAuth} {data : Bytes} {offset : Nat} :
    Harmless serves p limit x (.nvWrite auth (slotHandle uid serves) data offset) := by
  intro t guarded
  obtain ⟨⟨count, low, slot⟩, tag⟩ := id guarded
  have refused :
      ∃ kind, Tpm.exec (.nvWrite auth (slotHandle uid serves) data offset) t = (refuse kind, t) := by
    simp only [Tpm.exec, Tpm.nvWrite, slot]
    cases auth with
    | owner => exact ⟨_, rfl⟩
    | index a => exact ⟨_, rfl⟩
    | policy s =>
      have unauthorized :
          (slotIndex p.auth (some ⟨count, limit⟩)).policyAuthorizes s .nvWrite = false := by
        apply Bool.eq_false_iff.2
        intro both
        obtain ⟨digest, holds⟩ := Bool.and_eq_true_iff.1 both
        have same : s.assertions = slotPolicy := of_decide_eq_true digest
        rw [same] at holds
        cases holds
      refine ⟨.policyFail, ?_⟩
      dsimp only
      rw [unauthorized]
      rfl
  obtain ⟨kind, refused⟩ := refused
  apply guarded.still
  · rw [refused]
  · cases auth with
    | index a =>
      simp only [Tpm.compares, slot]
      rfl
    | _ => rfl
  · intro rebuilds
    rw [refused] at rebuilds
    cases rebuilds

/-- A guess is refused unseen once the count has reached the limit, and costs one
before. -/
theorem guess_answer {a : Auth} (other : a ≠ p.auth) {size offset : Nat} {count : UInt32}
    (slot : t.nv (slotHandle uid serves) = some (slotIndex p.auth (some ⟨count, limit⟩))) :
    Tpm.exec (.nvRead (.index a) (slotHandle uid serves) size offset) t =
      if limit ≤ count then (refuse .authUnavailable, t)
      else (refuse .badAuth,
        t.set (slotHandle uid serves) (some (slotIndex p.auth (some ⟨count + 1, limit⟩)))) := by
  by_cases locked : limit ≤ count
  · simp only [Tpm.exec, Tpm.nvRead, slot, slotIndex, slotAttributes, NvIndex.present,
      NvIndex.unavailable, if_pos locked,
      if_true, Tpm.set_self]
  · simp only [Tpm.exec, Tpm.nvRead, slot, slotIndex, slotAttributes, NvIndex.present,
      NvIndex.unavailable, if_neg locked,
      if_true, if_neg other, NvIndex.counted, NvIndex.mismatch]

theorem guess_harmless {a : Auth} (other : a ≠ p.auth) {size offset : Nat} :
    Harmless serves p limit x (.nvRead (.index a) (slotHandle uid serves) size offset) := by
  intro t guarded
  obtain ⟨⟨count, low, slot⟩, tag⟩ := id guarded
  have answer := @guess_answer uid serves p limit t a other size offset count slot
  by_cases locked : limit ≤ count
  · rw [if_pos locked] at answer
    apply guarded.still
    · rw [answer]
    · simp only [Tpm.compares, slot, slotIndex, NvIndex.unavailable, if_pos locked,
        Option.isNone_some, Bool.and_false]
    · exact not_rebuilds_nvRead
  · rw [if_neg locked] at answer
    rw [answer]
    have below := UInt32.lt_iff_toNat_lt.1 (UInt32.not_le.1 locked)
    have next : (count + 1).toNat = count.toNat + 1 := by
      have bound := limit.toNat_lt
      rw [UInt32.toNat_add, UInt32.toNat_one]
      omega
    have seen : t.compares (slotHandle uid serves)
        (.nvRead (.index a) (slotHandle uid serves) size offset) = true := by
      simp only [Tpm.compares, slot, slotIndex, slotAttributes, NvIndex.unavailable, if_neg locked,
        Option.isNone_none,
        decide_true, Bool.and_true]
    refine ⟨⟨⟨count, count + 1, slot, Tpm.nv_set_self, ?_⟩, not_rebuilds_nvRead⟩,
      ⟨⟨count + 1, ?_, Tpm.nv_set_self⟩, ?_⟩⟩
    · show (count + 1).toNat = count.toNat + (t.compares _ _).toNat
      rw [seen, next]
      rfl
    · apply UInt32.le_iff_toNat_le.2
      omega
    · rw [Tpm.nv_set_of_ne slotHandle_ne_tagHandle.symm]
      exact tag

/-! ## The calls -/

/-- What an attempt's program does among the others. -/
abbrev Yields {ε α : Type} (serves : Serves uid) (p : Pin) (limit : UInt32) (x : NvIndex)
    (prog : Fallible NvCmd ε α) (Φ : Except ε α → Prop) : Prop :=
  Gives Tpm.exec.graph (Guarded serves p limit x) (Paid serves p limit) prog Φ

theorem yields_tpm {c : NvCmd} {Φ : Except TssError c.Out → Prop}
    (harmless : Harmless serves p limit x c)
    (answer : ∀ t, Guarded serves p limit x t → Φ (Tpm.exec c t).1) :
    Yields serves p limit x (tpm c) Φ := by
  apply gives_op
  rintro t r t' guarded act
  obtain ⟨paid, kept⟩ := harmless t guarded
  have result := answer t guarded
  rw [show Tpm.exec c t = (r, t') from act] at paid kept result
  exact ⟨paid, kept, result⟩

theorem yields_ofTss {α : Type} {y : TssM α} {Φ : Except PinError α → Prop}
    (body : Yields serves p limit x y fun r => Φ (r.mapError PinError.ofTss)) :
    Yields serves p limit x (ofTss y) Φ :=
  gives_mapErr body

theorem yields_quiet (c : NvCmd) (quiet : c.Quiet) {Φ : Except TssError c.Out → Prop}
    (answer : ∀ t, Guarded serves p limit x t → Φ (Tpm.exec c t).1) :
    Yields serves p limit x (tpm c) Φ :=
  yields_tpm (quiet_harmless quiet) answer

theorem yields_session {α : Type} {f : TssM α} {Φ : Except TssError α → Prop}
    (body : Yields serves p limit x f Φ) :
    Yields serves p limit x (executeWithNullauthSession f) Φ := by
  unfold executeWithNullauthSession
  have start : Yields serves p limit x (tpm (.startAuthSession .hmac)) fun r => r = .ok .fresh :=
    yields_quiet (.startAuthSession .hmac) trivial fun _ _ => rfl
  have flush : Yields serves p limit x (tpm .flushContext) fun r => r = .ok () :=
    yields_quiet .flushContext trivial fun _ _ => rfl
  apply gives_bind start _ nofun
  intro _ _
  apply gives_attempt_bind body
  intro r result
  exact gives_bind flush (fun _ _ => gives_ofResult result) nofun

/-- The tag is not read as absent. -/
theorem yields_readPinVersionTag (tagged : x.Tagged) :
    Yields serves p limit x (readPinVersionTag uid) fun r =>
      ∀ v, r = .ok v → v = some PIN_VERSION_CURRENT := by
  obtain ⟨size, rest, area⟩ := tagged
  have full : Yields serves p limit x (readFull (tagHandle uid serves)) fun r =>
      r ≠ .error (.tss2 (some .handle)) ∧ r ≠ .error (.tss2 (some .nvUninitialized)) ∧
        ∀ data, r = .ok data → data.length = 1 → data.head? = some PIN_VERSION_CURRENT := by
    have public_ :
        Yields serves p limit x (tpm (.nvReadPublic (tagHandle uid serves))) fun r =>
        ∃ n, r = .ok n := by
      apply yields_quiet (.nvReadPublic _) trivial
      intro t guarded
      simp only [Tpm.exec, guarded.tag]
      exact ⟨_, rfl⟩
    apply gives_bind public_ _ (by rintro _ ⟨_, ⟨⟩⟩)
    intro n _
    apply yields_quiet (.nvRead .owner _ n 0) trivial
    intro t guarded
    simp only [Tpm.exec, Tpm.nvRead, guarded.tag, NvIndex.read, area, NvArea.contents]
    split
    · split
      · refine ⟨by simp, by simp, ?_⟩
        rintro data ⟨⟩ single
        cases n with
        | zero => cases single
        | succ n => rfl
      · simp [refuse]
    · simp [refuse]
  unfold readPinVersionTag
  rw [versionNvIndexForUid_eq serves, ofResult_ok_bind]
  apply gives_attempt_bind (yields_session full)
  rintro r ⟨absent, unwritten, data⟩
  cases r with
  | ok bytes =>
    dsimp only
    by_cases single : bytes.length = PIN_VERSION_TAG_SIZE
    · rw [if_neg (not_not.2 single)]
      apply gives_pure
      rintro _ ⟨⟩
      exact data bytes rfl single
    · rw [if_pos single]
      exact gives_throw (by simp)
  | error e =>
    split
    · cases ‹Except.error e = .ok _›
    · cases ‹Except.error e = _›
      exact absurd rfl absent
    · cases ‹Except.error e = _›
      exact absurd rfl unwritten
    · exact gives_throw (by simp)

theorem yields_slotSize :
    Yields serves p limit x (tpm (.nvReadPublic (slotHandle uid serves))) fun r => r = .ok 8 := by
  apply yields_quiet (.nvReadPublic _) trivial
  intro t guarded
  obtain ⟨count, -, slot⟩ := guarded.slot
  simp only [Tpm.exec, slot]
  rfl

/-- The slot is not read as absent. -/
theorem yields_readPinSlotOwner :
    Yields serves p limit x (readPinSlotOwner (slotHandle uid serves)) fun r =>
      ∃ slot, r = .ok (some slot) := by
  have read : Yields serves p limit x (tpm (.nvRead .owner (slotHandle uid serves) 8 0)) fun r =>
      ∃ c : PinCounters, r = .ok c.toBytes := by
    apply yields_quiet (.nvRead .owner _ 8 0) trivial
    intro t guarded
    obtain ⟨count, -, slot⟩ := guarded.slot
    simp only [Tpm.exec, Tpm.nvRead, slot]
    exact ⟨_, rfl⟩
  unfold readPinSlotOwner readFull
  rw [bind_assoc]
  refine gives_attempt_bind (yields_session (Φ := fun r => ∃ slot, r = .ok slot) ?_) ?_
  · apply gives_bind yields_slotSize _ (by rintro _ ⟨⟩)
    rintro _ ⟨⟩
    apply gives_bind read _ (by rintro _ ⟨_, ⟨⟩⟩)
    rintro _ ⟨c, ⟨⟩⟩
    rw [PinData.fromBytes_toBytes]
    exact gives_pure ⟨_, rfl⟩
  · rintro _ ⟨slot, rfl⟩
    exact gives_pure ⟨slot, rfl⟩

/-- Another value is never accepted. -/
theorem yields_verifyPinExact {bytes : Bytes} (other : Auth.ofBytes bytes ≠ p.auth) :
    Yields serves p limit x (verifyPinExact uid bytes) fun r =>
      ∀ v, r = .ok v → ∃ locked, v = .invalid locked := by
  have guess : Yields serves p limit x
      (tpm (.nvRead (.index (.ofBytes bytes)) (slotHandle uid serves) PinData.SIZE 0))
      fun r => ∃ e, r = .error e := by
    apply yields_tpm (guess_harmless other)
    intro t guarded
    obtain ⟨count, -, slot⟩ := guarded.slot
    rw [guess_answer other slot]
    split <;> exact ⟨_, rfl⟩
  have compared : Yields serves p limit x
      (do
        let auth ← ofResult (Auth.tryFrom bytes)
        tpm (.nvRead (.index auth) (slotHandle uid serves) PinData.SIZE 0)) fun r =>
          ∃ e, r = .error e := by
    unfold Auth.tryFrom
    split
    · rw [ofResult_ok_bind]
      exact guess
    · exact gives_throw ⟨_, rfl⟩
  unfold verifyPinExact
  rw [nvIndexForUid_eq serves, ofResult_ok_bind]
  have public_ :
      Yields serves p limit x (ofTss (tpm (.nvReadPublic (slotHandle uid serves))))
      fun r => r = .ok 8 :=
    yields_ofTss (yields_slotSize.mono (by rintro _ rfl; rfl))
  apply gives_bind public_ _ (by rintro _ ⟨⟩)
  intro _ _
  apply gives_attempt_bind (yields_session compared)
  rintro _ ⟨e, rfl⟩
  simp only [Except.bind]
  have invalid : ∀ f : Except PinError (Option PinData) → Bool, Yields serves p limit x
      (do
        let slot ← attempt (readPinSlotOwner (slotHandle uid serves))
        pure (.invalid (f slot))) fun r : Except PinError VerificationResult =>
          ∀ v, r = .ok v → ∃ locked, v = .invalid locked := by
    intro f
    apply gives_attempt_bind yields_readPinSlotOwner
    intro r _
    apply gives_pure
    rintro _ ⟨⟩
    exact ⟨_, rfl⟩
  split
  · cases ‹Except.error e = .ok _›
  · exact invalid _
  · exact invalid _
  · exact gives_throw (by simp)
  · exact gives_throw (by simp)
  · exact gives_throw (by simp)

/-- A verification with another PIN is refused, and migrates nothing. -/
theorem yields_verifyPin (tagged : x.Tagged) {m : PinManager} {q : Pin} (other : q.auth ≠ p.auth) :
    Yields serves p limit x (m.verifyPin uid q) fun r =>
      ∀ v, r = .ok v → ∃ locked, v = .invalid locked := by
  unfold PinManager.verifyPin
  apply gives_bind (yields_readPinVersionTag tagged) _ fun _ _ => nofun
  intro v current
  obtain rfl := current v rfl
  dsimp only
  rw [if_neg (not_not.2 rfl)]
  exact yields_verifyPinExact other

theorem call_assures (tagged : x.Tagged) (m : PinManager) (made : ManagerCall) {q : Pin}
    (given : made.pin = some q) (other : q.auth ≠ p.auth) :
    (made.program m uid).run.Assures Tpm.exec.graph (Guarded serves p limit x)
      (Paid serves p limit) := by
  cases made with
  | setupPin pin =>
    have provisioned : Yields serves p limit x (m.setupPin uid pin) fun _ => True := by
      unfold PinManager.setupPin
      rw [nvIndexForUid_eq serves, ofResult_ok_bind]
      apply gives_bind yields_readPinSlotOwner _ nofun
      rintro _ ⟨slot, ⟨⟩⟩
      exact gives_throw trivial
    exact provisioned.assures
  | verifyPin pin =>
    cases given
    have verified : Yields serves p limit x ((ManagerCall.verifyPin q).program m uid) fun _ => True :=
      gives_bind (yields_verifyPin tagged other) (fun _ _ => gives_pure trivial) fun _ _ => trivial
    exact verified.assures
  | deletePinWithAuth pin =>
    cases given
    have deleted : Yields serves p limit x (m.deletePinWithAuth uid q) fun _ => True := by
      unfold PinManager.deletePinWithAuth
      apply gives_bind (yields_verifyPin tagged other) _ fun _ _ => trivial
      intro v refused
      obtain ⟨locked, rfl⟩ := refused v rfl
      exact gives_pure trivial
    have program :
        Yields serves p limit x ((ManagerCall.deletePinWithAuth q).program m uid) fun _ => True :=
      gives_bind deleted (fun _ _ => gives_pure trivial) fun _ _ => trivial
    exact program.assures
  | deletePinAdmin => cases given

theorem Attempt.Without.assures (tagged : x.Tagged) (free : '\x00' ∉ p.str) {attempt : Attempt}
    (without : attempt.Without serves p) :
    (attempt.program uid).run.Assures Tpm.exec.graph (Guarded serves p limit x)
      (Paid serves p limit) := by
  have raw : ∀ c, Harmless serves p limit x c →
      ((Attempt.raw c).program uid).run.Assures Tpm.exec.graph (Guarded serves p limit x)
        (Paid serves p limit) := by
    intro c harmless
    have sent : Yields serves p limit x (ofTss (tpm c)) fun _ => True :=
      yields_ofTss (yields_tpm harmless fun _ _ => trivial)
    have program : Yields serves p limit x ((Attempt.raw c).program uid) fun _ => True :=
      gives_bind sent (fun _ _ => gives_pure trivial) fun _ _ => trivial
    exact program.assures
  have distinct : ∀ {q : Pin}, '\x00' ∉ q.str → q ≠ p → q.auth ≠ p.auth :=
    fun freeQ other same => other (Pin.auth_injective freeQ free same)
  cases without with
  | setupPin m freeQ other => exact call_assures tagged m (.setupPin _) rfl (distinct freeQ other)
  | verifyPin m freeQ other => exact call_assures tagged m (.verifyPin _) rfl (distinct freeQ other)
  | deletePinWithAuth m freeQ other =>
    exact call_assures tagged m (.deletePinWithAuth _) rfl (distinct freeQ other)
  | @nvRead auth other size offset =>
    apply raw
    cases auth with
    | index a => exact guess_harmless fun same => other (same ▸ rfl)
    | owner => exact quiet_harmless trivial
    | policy s => exact quiet_harmless trivial
  | nvWrite other data offset => exact raw _ nvWrite_harmless

/-! ## The start -/

/-- Every command takes effect, and nothing is asked of a kill. -/
abbrev Posts {ε α : Type} (y : Fallible NvCmd ε α) (Q : Except ε α → Tpm → Prop) (t : Tpm) : Prop :=
  wpx (Faulty Tpm.exec fun _ => False) (fun _ => True) y Q t

theorem posts_tpm {c : NvCmd} {Q : Except TssError c.Out → Tpm → Prop}
    (done : Q (Tpm.exec c t).1 (Tpm.exec c t).2) :
    Posts (tpm c) Q t :=
  wpx_tpm rfl trivial trivial done fun no => no.elim

theorem posts_session {α : Type} {f : TssM α} {Q : Except TssError α → Tpm → Prop}
    (body : Posts f Q t) :
    Posts (executeWithNullauthSession f) Q t :=
  wpx_session trivial (fun no => no.elim) (wpx_mono body fun _ _ _ post => ⟨post, fun no => no.elim⟩)

theorem definePinSlot_posts {m : PinManager} {bytes : Bytes} :
    Posts (m.definePinSlot (slotHandle uid serves) bytes) (fun r t' => r = .ok () →
      t'.nv (slotHandle uid serves) =
      some (slotIndex (.ofBytes bytes) (some ⟨0, m.policy.maxAttempts⟩))) t := by
  unfold PinManager.definePinSlot Auth.tryFrom
  split
  case isFalse => exact wpx_bind.2 (wpx_ofTss ⟨trivial, trivial, by simp⟩)
  refine wpx_bind.2 (wpx_ofTss ⟨trivial, ?_⟩)
  refine wpx_bind.2 (wpx_ofTss ?_)
  refine wpx_bind.2
    (posts_tpm (wpx_bind.2 (posts_tpm (wpx_bind.2 (posts_tpm (wpx_bind.2 (posts_tpm ?_)))))))
  refine wpx_bind.2 (posts_tpm ⟨trivial, ?_⟩)
  -- the space is defined, or the setup fails
  have defined : Posts (ofTss (executeWithNullauthSession (tpm (.nvDefineSpace (.ofBytes bytes)
      (slotPublic (slotHandle uid serves) slotPolicy))))) (fun r t' => r = .ok () →
        t'.nv (slotHandle uid serves) = some (slotIndex (.ofBytes bytes) none)) t := by
    refine wpx_ofTss (posts_session (posts_tpm ?_))
    simp only [Tpm.exec, Tpm.nvDefineSpace]
    split
    · simp [refuse, Except.mapError]
    split
    · simp [refuse, Except.mapError]
    · exact fun _ => Tpm.nv_set_self
  refine wpx_seq defined ?_ fun _ _ _ _ => by rintro ⟨⟩
  intro _ t' _ half
  have half := half rfl
  have written : (Tpm.exec (.nvWrite (.policy ⟨slotPolicy⟩) (slotHandle uid serves)
      (PinData.toBytes ⟨0, m.policy.maxAttempts.toInt32⟩) 0) t').2.nv (slotHandle uid serves) =
        some (slotIndex (.ofBytes bytes) (some ⟨0, m.policy.maxAttempts⟩)) := by
    simp [PinData.toBytes_initial, Tpm.exec, Tpm.nvWrite, half, slotIndex, slotAttributes,
      NvIndex.policyAuthorizes, slotPolicy,
      PolicySession.digest, PolicyAssertion.permits, NvArea.written, NvArea.contents,
        Tpm.store, NvArea.write]
  refine wpx_ofTss (wpx_bind.2 (posts_tpm (wpx_bind.2 (posts_tpm (wpx_bind.2 (posts_tpm ?_))))))
  refine wpx_bind.2 (posts_tpm ?_)
  simp only [Tpm.exec, half]
  exact posts_tpm fun _ => written

theorem tag_frame {c : NvCmd} (named : c.index = some (tagHandle uid serves)) :
    (Tpm.exec c t).2.nv (slotHandle uid serves) = t.nv (slotHandle uid serves) := by
  apply exec_frame
  rw [named]
  exact fun same => slotHandle_ne_tagHandle (Option.some.inj same).symm

/-- The slot is untouched, and an `Ok` means that the version was written. -/
def TagPost (serves : Serves uid) (y : Option NvIndex) (r : Except PinError Unit) (t : Tpm) : Prop :=
  t.nv (slotHandle uid serves) = y ∧ (r = .ok () → ∃ x, x.Tagged ∧ t.nv (tagHandle uid serves) = some x)

theorem writePinVersionTagExisting_posts {y : Option NvIndex}
    (slot : t.nv (slotHandle uid serves) = y) :
    Posts (writePinVersionTagExisting (tagHandle uid serves) PIN_VERSION_CURRENT)
      (TagPost serves y) t := by
  unfold writePinVersionTagExisting
  refine wpx_ofTss (posts_session (wpx_bind.2 (posts_tpm ?_)))
  cases present : t.nv (tagHandle uid serves) with
  | none =>
    simp only [Tpm.exec, present]
    exact ⟨trivial, slot, by rintro ⟨⟩⟩
  | some x =>
    simp only [Tpm.exec, present]
    refine posts_tpm ⟨(tag_frame rfl).trans slot, fun ok => ?_⟩
    simp only [Tpm.exec, Tpm.nvWrite, present] at ok ⊢
    by_cases writable : x.attributes.ownerWrite
    · rw [if_pos writable] at ok ⊢
      obtain ⟨attributes, policy, auth, area⟩ := x
      cases area with
      | pinFail pin => cases ok
      | ordinary size old =>
        unfold Tpm.store NvArea.write at ok ⊢
        dsimp only at ok ⊢
        by_cases fits : 0 + [PIN_VERSION_CURRENT].length ≤ size
        · rw [if_pos fits]
          exact ⟨_, ⟨size, _, rfl⟩, Tpm.nv_set_self⟩
        · rw [if_neg fits] at ok
          cases ok
    · rw [if_neg writable] at ok
      cases ok

theorem writePinVersionTag_posts {y : Option NvIndex} (slot : t.nv (slotHandle uid serves) = y) :
    Posts (writePinVersionTag uid PIN_VERSION_CURRENT) (TagPost serves y) t := by
  unfold writePinVersionTag
  rw [versionNvIndexForUid_eq serves, ofResult_ok_bind]
  refine wpx_bind.2
    (wpx_attempt.2 (wpx_mono (writePinVersionTagExisting_posts slot) fun r t' _ post => ?_))
  have defined :
      Posts (definePinVersionTag (tagHandle uid serves))
        (fun _ t'' => t''.nv (slotHandle uid serves) = y) t' := by
    refine wpx_ofTss (posts_session (posts_tpm ?_))
    exact (tag_frame rfl).trans post.1
  cases r with
  | ok _ => exact ⟨trivial, post⟩
  | error e =>
    cases e with
    | tpmError _ =>
      exact wpx_seq defined (fun _ _ _ slot => writePinVersionTagExisting_posts slot)
        fun _ _ _ slot => ⟨slot, nofun⟩
    | _ => exact ⟨trivial, post.1, nofun⟩

/-- A setup that returns `Ok` leaves the slot and its tag, whatever was there before. -/
theorem setupPin_posts {m : PinManager} : Posts (m.setupPin uid p) (fun r t' => r = .ok () →
    t'.nv (slotHandle uid serves) = some (slotIndex p.auth (some ⟨0, m.policy.maxAttempts⟩)) ∧
      ∃ x, x.Tagged ∧ t'.nv (tagHandle uid serves) = some x) t := by
  unfold PinManager.setupPin
  rw [nvIndexForUid_eq serves, ofResult_ok_bind]
  refine wpx_seq wpx_any ?_ fun _ _ _ _ => by simp
  intro existing t₁ _ _
  split
  · exact ⟨trivial, by simp⟩
  refine wpx_seq definePinSlot_posts ?_ fun _ _ _ _ => by simp
  intro _ t₂ _ slot
  refine wpx_bind.2 (wpx_ofTss (posts_tpm ?_))
  refine wpx_bind.2
    (wpx_attempt.2 (wpx_mono (writePinVersionTag_posts (slot rfl)) fun r t₃ _ post => ?_))
  cases r with
  | ok _ => exact ⟨trivial, fun _ => ⟨post.1, post.2 rfl⟩⟩
  | error err =>
    refine wpx_seq wpx_any (fun _ _ _ _ => ?_) fun _ _ _ _ => by simp
    refine wpx_bind.2 (wpx_attempt.2 (wpx_mono wpx_any fun r _ _ _ => ?_))
    cases r with
    | ok _ => exact ⟨trivial, by simp⟩
    | error _ => exact ⟨trivial, by simp⟩

/-! ## The bound -/

/-- The count of a PIN index. -/
def Tpm.pinCount (t : Tpm) (i : NvIndexTpmHandle) : Nat :=
  match (t.nv i).map NvIndex.area with
  | some (.pinFail (some c)) => c.pinCount.toNat
  | _ => 0

/-- The TPM compares the event's guess with the slot. -/
def guessed (serves : Serves uid) (event : Event NvCmd Tpm) : Bool :=
  event.before.compares (slotHandle uid serves) event.op

theorem Paid.counted {event : Event NvCmd Tpm} (paid : Paid serves p limit event) :
    event.after.pinCount (slotHandle uid serves) =
      event.before.pinCount (slotHandle uid serves) + (guessed serves event).toNat := by
  obtain ⟨c, c', before, after, count⟩ := paid.counts
  unfold Tpm.pinCount
  rw [before, after]
  exact count

/-- After a setup with the PIN `p`, any number of attempts without it, in any order and
cut short anywhere, have the TPM compare at most as many guesses as the limit. -/
theorem guesses_bounded {m : PinManager} {t₀ t' : Tpm} {attempts : List Attempt}
    {events : List (Event NvCmd Tpm)} {left : List (Prog NvCmd (PinResult Unit))}
    (free : '\x00' ∉ p.str) (setup : exec Tpm.exec (m.setupPin uid p) t = (.ok (), t₀))
    (without : ∀ a ∈ attempts, a.Without serves p)
    (run : Pool.Run Tpm.exec.graph (attempts.map fun a => (a.program uid).run) t₀ events left t') :
    events.countP (guessed serves) ≤ m.policy.maxAttempts.toNat ∧
      (∀ event ∈ events, Paid serves p m.policy.maxAttempts event) ∧
        ∃ c, t'.nv (slotHandle uid serves) = some (slotIndex p.auth (some ⟨c, m.policy.maxAttempts⟩)) ∧
          c.toNat = events.countP (guessed serves) := by
  have start := exec_of_wpx (@setupPin_posts uid serves p t m)
  rw [setup] at start
  obtain ⟨slot, x, tagged, tag⟩ := start rfl
  have assures : ∀ prog ∈ attempts.map fun a => (a.program uid).run,
      prog.Assures Tpm.exec.graph (Guarded serves p m.policy.maxAttempts x)
        (Paid serves p m.policy.maxAttempts) := by
    intro prog member
    obtain ⟨a, attempted, rfl⟩ := List.mem_map.1 member
    exact (without a attempted).assures tagged free
  have guarded : Guarded serves p m.policy.maxAttempts x t₀ := ⟨⟨0, UInt32.zero_le, slot⟩, tag⟩
  obtain ⟨paid, ⟨c, low, final⟩, -⟩ := Pool.run_assured run assures guarded
  have total := Pool.run_measure run (Tpm.pinCount · (slotHandle uid serves)) (guessed serves)
    fun event member => (paid event member).counted
  have zero : t₀.pinCount (slotHandle uid serves) = 0 := by
    unfold Tpm.pinCount
    rw [slot]
    rfl
  have count : t'.pinCount (slotHandle uid serves) = c.toNat := by
    unfold Tpm.pinCount
    rw [final]
    rfl
  rw [zero, count, Nat.zero_add] at total
  refine ⟨?_, paid, c, final, total⟩
  rw [← total]
  exact UInt32.le_iff_toNat_le.1 low

/-- More wrong guesses than the limit, one of them by a bare command of the TPM. -/
def guessers : List Attempt :=
  [.call defaultManager (.verifyPin chosenPin), .call defaultManager (.verifyPin paddedPin),
    .raw (.nvRead (.index paddedPin.auth) (slotHandle 1000 serves_thousand) 8 0),
    .call defaultManager (.deletePinWithAuth chosenPin),
    .call defaultManager (.verifyPin chosenPin)]

/-- Each guesser a command at a time. -/
def guessTurns : List (Nat × Option Fault) := Pool.inTurn ((List.range 150).map (· % 5))

theorem guesses_bounded_interleaved :
    let pool := guessers.map fun a => (a.program 1000).run
    let events := (Pool.events Tpm.exec guessTurns pool plainTpm).map Prod.snd
    events.countP (guessed serves_thousand) ≤ 3 ∧
      (∀ event ∈ events, Paid serves_thousand plainPin 3 event) ∧
      ∃ c, (Pool.play Tpm.exec guessTurns pool plainTpm).2.nv (slotHandle 1000 serves_thousand) =
          some (slotIndex plainPin.auth (some ⟨c, 3⟩)) ∧
        c.toNat = events.countP (guessed serves_thousand) := by
  have stored : Account.setupPin 1000 plainPin defaultManager.policy.maxAttempts
      ⟨.absent, .absent⟩ = (.ok (), ⟨.written plainPin.auth ⟨0, 3⟩, .version PIN_VERSION_CURRENT⟩) := by
    decide +kernel
  have setup : exec Tpm.exec (defaultManager.setupPin 1000 plainPin)
      (Tpm.empty.put serves_thousand ⟨.absent, .absent⟩) = (.ok (), plainTpm) := by
    rw [exec_setupPin, stored]
    rfl
  have others : ∀ a ∈ guessers, a.Without serves_thousand plainPin := by
    intro a member
    simp only [guessers, List.mem_cons, List.not_mem_nil, or_false] at member
    rcases member with rfl | rfl | rfl | rfl | rfl
    · exact .verifyPin _ (by decide) (by decide)
    · exact .verifyPin _ (by decide) (by decide)
    · exact .nvRead (by decide) _ _
    · exact .deletePinWithAuth _ (by decide) (by decide)
    · exact .verifyPin _ (by decide) (by decide)
  exact guesses_bounded (by decide) setup others (Pool.steps_play Pool.inTurn_calm).unnumbered

end BruteForce

end Pinpam
