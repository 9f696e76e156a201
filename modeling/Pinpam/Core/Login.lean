import Pinpam.Core.Locality
import Pinpam.Core.Storage
import Pinpam.Effect.Schedule

/-!
# Logins during a provisioning

One process sets up a user while others verify the same PIN. Between the slot and its
tag there is a window in which the slot reads as a legacy one; outside of it, and as
long as no verification gets ahead of the setup with the tag, nobody is punished.
-/

namespace Pinpam
set_option autoImplicit false
open Pinpam.Effect Pinpam.Effect.Fallible

/-- The states of the slot while it is provisioned. -/
inductive SlotState.Stage (a : Auth) (limit : UInt32) : SlotState → Prop where
  | absent : Stage a limit .absent
  | unwritten : Stage a limit (.unwritten a)
  | written : Stage a limit (.written a ⟨0, limit⟩)

section Login

variable {uid limit : UInt32} {serves : Serves uid} {t₀ t : Tpm} {p : Pin} {slot : SlotState}
  {tag tag' : TagState}

/-- The slot is on its way to being that of the PIN, with no attempt used. -/
def Provisioning (serves : Serves uid) (t₀ : Tpm) (p : Pin) (limit : UInt32) (t : Tpm) : Prop :=
  ∃ slot tag, SlotState.Stage p.auth limit slot ∧ t = t₀.put serves ⟨slot, tag⟩

/-- The tag goes forward, and the slot stays. -/
def TagOnly (serves : Serves uid) (t₀ : Tpm) (p : Pin) (limit : UInt32) (t t' : Tpm) : Prop :=
  ∀ slot tag, SlotState.Stage p.auth limit slot → t = t₀.put serves ⟨slot, tag⟩ →
    ∃ tag', tag.Becomes PIN_VERSION_CURRENT tag' ∧ t' = t₀.put serves ⟨slot, tag'⟩

/-- A verification that read the tag as missing reaches its comparison, of a PIN with
leading zeros, when the slot is written. -/
def ReadsEarly (serves : Serves uid) (p : Pin) (event : Event NvCmd Tpm) : Prop :=
  event.op = .nvRead (.index p.legacyAuth) (slotHandle uid serves) PinData.SIZE 0 ∧
  p.legacyAuth ≠ p.auth ∧
    ∃ a c, event.before.nv (slotHandle uid serves) = some (slotIndex a (some c)) ∧ ¬ c.locked

/-- The setup comes to define the tag, and finds it defined. -/
def FindsTag (serves : Serves uid) (event : Event NvCmd Tpm) : Prop :=
  event.op = .nvDefineSpace Auth.empty (tagPublic (tagHandle uid serves)) ∧
  event.before.nv (tagHandle uid serves) ≠ none

/-- A verification, among others that only keep the slot on its way. -/
def login (serves : Serves uid) (t₀ : Tpm) (p : Pin) (limit : UInt32) : Contract NvCmd Tpm Reply where
  acts c t r t' := Tpm.exec c t = (r, t') ∧ ¬ ReadsEarly serves p ⟨t, c, r, t'⟩
  rely t t' := Provisioning serves t₀ p limit t → Provisioning serves t₀ p limit t'
  guar := TagOnly serves t₀ p limit
  ends reply _ := ∀ locked, reply ≠ .verifyPin (.ok (.invalid locked))

/-- The setup, among others that only move the tag forward. -/
def provision (serves : Serves uid) (t₀ : Tpm) (p : Pin) (limit : UInt32) :
    Contract NvCmd Tpm Reply where
  acts c t r t' := Tpm.exec c t = (r, t') ∧ ¬ FindsTag serves ⟨t, c, r, t'⟩
  rely := TagOnly serves t₀ p limit
  guar t t' := Provisioning serves t₀ p limit t → Provisioning serves t₀ p limit t'
  ends reply t :=
    reply = .setupPin (.ok ()) ∧ t = t₀.put serves ⟨.written p.auth ⟨0, limit⟩,
      .version PIN_VERSION_CURRENT⟩

/-! ## Relies and guarantees -/

theorem TagOnly.refl : TagOnly serves t₀ p limit t t := fun _ tag _ same => ⟨tag, .same, same⟩

theorem TagOnly.trans {t' t'' : Tpm} (first : TagOnly serves t₀ p limit t t')
    (second : TagOnly serves t₀ p limit t' t'') :
    TagOnly serves t₀ p limit t t'' := by
  intro slot tag stage same
  obtain ⟨tag', becomes, same'⟩ := first slot tag stage same
  obtain ⟨tag'', becomes', same''⟩ := second slot tag' stage same'
  exact ⟨tag'', becomes.trans becomes', same''⟩

theorem TagOnly.provisioning {t' : Tpm} (only : TagOnly serves t₀ p limit t t')
    (start : Provisioning serves t₀ p limit t) :
    Provisioning serves t₀ p limit t' := by
  obtain ⟨slot, tag, stage, same⟩ := start
  obtain ⟨tag', -, same'⟩ := only slot tag stage same
  exact ⟨slot, tag', stage, same'⟩

/-! ## A verification -/

/-- What a part of a verification gives among the others. -/
abbrev LogsIn {ε α : Type} (serves : Serves uid) (t₀ : Tpm) (p : Pin) (limit : UInt32)
    (y : Fallible NvCmd ε α) (Φ : Except ε α → Prop) : Prop :=
  Gives (login serves t₀ p limit).acts (Provisioning serves t₀ p limit)
    (fun event => TagOnly serves t₀ p limit event.before event.after)
    y Φ

theorem logsIn_quiet {ε α : Type} {y : Fallible NvCmd ε α} (quiet : OnlyX NvCmd.Quiet y) :
    LogsIn serves t₀ p limit y fun _ => True := by
  intro last assured
  refine Prog.wp_mono (Prog.wp_only ?_ quiet assured) fun _ _ _ _ => trivial
  rintro c _ r _ quiet - ⟨s, s', inv, act, rfl⟩
  have same : s' = s := by
    rw [show s' = (Tpm.exec c s).2 by rw [act.1]]
    exact exec_quiet quiet
  subst same
  exact ⟨TagOnly.refl, inv⟩

theorem logsIn_tpm {c : NvCmd} {Φ : Except TssError c.Out → Prop}
    (act : ∀ slot tag r t', SlotState.Stage p.auth limit slot →
      (login serves t₀ p limit).acts c (t₀.put serves ⟨slot, tag⟩) r t' →
      Φ r ∧ ∃ tag', tag.Becomes PIN_VERSION_CURRENT tag' ∧ t' = t₀.put serves ⟨slot, tag'⟩) :
    LogsIn serves t₀ p limit (tpm c) Φ := by
  apply gives_op
  rintro t r t' ⟨slot, tag, stage, rfl⟩ done
  obtain ⟨result, tag', becomes, rfl⟩ := act slot tag r t' stage done
  refine ⟨fun slot₁ tag₁ _ same => ?_, ⟨slot, tag', stage, rfl⟩, result⟩
  cases Tpm.put_shows.unique (same ▸ Tpm.put_shows)
  exact ⟨tag', becomes, rfl⟩

theorem logsIn_session {α : Type} {f : TssM α} {Φ : Except TssError α → Prop}
    (body : LogsIn serves t₀ p limit f Φ) :
    LogsIn serves t₀ p limit (executeWithNullauthSession f) Φ := by
  have start : LogsIn serves t₀ p limit (tpm (.startAuthSession .hmac)) fun r => r = .ok .fresh := by
    apply logsIn_tpm
    rintro slot tag r t' - ⟨⟨⟩, -⟩
    exact ⟨rfl, tag, .same, rfl⟩
  have flush : LogsIn serves t₀ p limit (tpm .flushContext) fun r => r = .ok () := by
    apply logsIn_tpm
    rintro slot tag r t' - ⟨⟨⟩, -⟩
    exact ⟨rfl, tag, .same, rfl⟩
  unfold executeWithNullauthSession
  apply gives_bind start _ nofun
  intro _ _
  apply gives_attempt_bind body
  intro r result
  exact gives_bind flush (fun _ _ => gives_ofResult result) nofun

/-- The PIN is compared with the slot: it matches, or the slot is not there to be
compared with. -/
theorem compare_acts {a : Auth} {r : Except TssError Bytes} {t' : Tpm}
    (own : a = p.auth ∨ a = p.legacyAuth) (stage : SlotState.Stage p.auth limit slot)
    (act : (login serves t₀ p limit).acts (.nvRead (.index a) (slotHandle uid serves) PinData.SIZE 0)
      (t₀.put serves ⟨slot, tag⟩) r t') :
    ((∃ kind, r = refuse kind ∧ kind ≠ .badAuth ∧ kind ≠ .authFail) ∨
      (∃ data, r = .ok data) ∧ a = p.auth) ∧
      t' = t₀.put serves ⟨slot, tag⟩ := by
  obtain ⟨run, early⟩ := act
  rw [exec_nvRead_slot_index] at run
  obtain ⟨rfl, rfl⟩ := Prod.mk.inj run
  cases stage with
  | absent => exact ⟨.inl ⟨_, rfl, by simp, by simp⟩, rfl⟩
  | unwritten => exact ⟨.inl ⟨_, rfl, by simp, by simp⟩, rfl⟩
  | written =>
    by_cases locked : PinCounters.locked ⟨0, limit⟩
    · simp only [if_pos locked, compared_locked locked, and_true]
      exact .inl ⟨_, rfl, by simp, by simp⟩
    by_cases hit : a = p.auth
    · subst hit
      simp only [if_neg locked, compared_hit locked]
      exact ⟨.inr ⟨⟨_, rfl⟩, trivial⟩, rfl⟩
    · obtain rfl := own.resolve_left hit
      exact absurd ⟨rfl, hit, _, _, put_slot, locked⟩ early

/-- A comparison with the PIN, in either form, is never refused as wrong. -/
theorem logsIn_verifyPinExact {bytes : Bytes}
    (own : Auth.ofBytes bytes = p.auth ∨ Auth.ofBytes bytes = p.legacyAuth) :
    LogsIn serves t₀ p limit (verifyPinExact uid bytes) fun r => (∀ locked, r ≠ .ok (.invalid locked)) ∧
      ∀ slot, r = .ok (.success slot) → Auth.ofBytes bytes = p.auth := by
  have compared : LogsIn serves t₀ p limit
      (do
        let auth ← ofResult (Auth.tryFrom bytes)
        tpm (.nvRead (.index auth) (slotHandle uid serves) PinData.SIZE 0))
      fun r => r ≠ .error (.tss2 (some .badAuth)) ∧ r ≠ .error (.tss2 (some .authFail)) ∧
        ∀ data, r = .ok data → Auth.ofBytes bytes = p.auth := by
    unfold Auth.tryFrom
    split
    · rw [ofResult_ok_bind]
      apply logsIn_tpm
      intro slot tag r t' stage act
      obtain ⟨answer, rfl⟩ := compare_acts own stage act
      refine ⟨?_, tag, .same, rfl⟩
      rcases answer with ⟨kind, rfl, wrong, wrong'⟩ | ⟨⟨data, rfl⟩, same⟩
      · refine ⟨?_, ?_, by simp [refuse]⟩
        · rintro ⟨⟩
          exact wrong rfl
        · rintro ⟨⟩
          exact wrong' rfl
      · exact ⟨by simp, by simp, fun _ _ => same⟩
    · exact gives_throw (by simp)
  unfold verifyPinExact
  rw [nvIndexForUid_eq serves, ofResult_ok_bind]
  refine gives_bind (logsIn_quiet (onlyX_mapErr (onlyX_op trivial))) (fun _ _ => ?_) fun _ _ => by simp
  apply gives_attempt_bind (logsIn_session compared)
  rintro r ⟨wrong, wrong', hit⟩
  cases r with
  | error e =>
    simp only [Except.bind]
    split
    · cases ‹Except.error e = .ok _›
    · cases ‹Except.error e = _›
      exact absurd rfl wrong'
    · cases ‹Except.error e = _›
      exact absurd rfl wrong
    · exact gives_throw (by simp)
    · exact gives_throw (by simp)
    · exact gives_throw (by simp)
  | ok data =>
    have same := hit data rfl
    simp only [Except.bind]
    cases PinData.fromBytes data with
    | none => exact gives_throw (by simp)
    | some slot =>
      refine gives_pure ⟨fun locked => ?_, fun _ _ => same⟩
      split <;> simp

theorem logsIn_writePinVersionTagExisting : LogsIn serves t₀ p limit
    (writePinVersionTagExisting (tagHandle uid serves) PIN_VERSION_CURRENT) fun _ => True := by
  refine gives_mapErr
    (logsIn_session (gives_bind (logsIn_quiet (onlyX_op trivial)) (fun _ _ => ?_) fun _ _ => trivial))
  apply logsIn_tpm
  rintro slot tag r t' - ⟨run, -⟩
  refine ⟨trivial, ?_⟩
  by_cases absent : tag = .absent
  · subst absent
    have missing :
        Tpm.exec (.nvWrite .owner (tagHandle uid serves) [PIN_VERSION_CURRENT] 0)
          (t₀.put serves ⟨slot, .absent⟩) =
          (refuse .handle, t₀.put serves ⟨slot, .absent⟩) := by
      simp [Tpm.exec, Tpm.nvWrite, TagState.index]
    rw [missing] at run
    cases run
    exact ⟨_, .same, rfl⟩
  · rw [exec_nvWrite_tag absent] at run
    cases run
    exact ⟨_, .written, rfl⟩

theorem logsIn_definePinVersionTag :
    LogsIn serves t₀ p limit (definePinVersionTag (tagHandle uid serves)) fun _ => True := by
  refine gives_mapErr (logsIn_session ?_)
  apply logsIn_tpm
  rintro slot tag r t' - ⟨run, -⟩
  refine ⟨trivial, ?_⟩
  by_cases absent : tag = .absent
  · rw [exec_nvDefineSpace_tag absent] at run
    cases run
    exact ⟨_, .defined absent, rfl⟩
  · rw [exec_nvDefineSpace_tag_present absent] at run
    cases run
    exact ⟨_, .same, rfl⟩

theorem logsIn_writePinVersionTag :
    LogsIn serves t₀ p limit (writePinVersionTag uid PIN_VERSION_CURRENT) fun _ => True := by
  unfold writePinVersionTag
  rw [versionNvIndexForUid_eq serves, ofResult_ok_bind]
  apply gives_attempt_bind logsIn_writePinVersionTagExisting
  intro r _
  split
  · exact gives_pure trivial
  · exact gives_bind logsIn_definePinVersionTag (fun _ _ => logsIn_writePinVersionTagExisting)
      fun _ _ => trivial
  · exact gives_throw trivial

/-- A verification is never told that its PIN is wrong. -/
theorem logsIn_verifyPin {m : PinManager} :
    LogsIn serves t₀ p limit (m.verifyPin uid p) fun r => ∀ locked, r ≠ .ok (.invalid locked) := by
  have restart : LogsIn serves t₀ p limit m.restartContext fun _ => True :=
    logsIn_quiet (onlyX_mapErr (onlyX_op trivial))
  unfold PinManager.verifyPin
  refine gives_bind (logsIn_quiet readPinVersionTag_quiet) (fun version _ => ?_) fun _ _ => nofun
  cases version with
  | some version =>
    dsimp only
    split
    · exact gives_throw nofun
    · exact (logsIn_verifyPinExact (.inl rfl)).mono fun _ result => result.1
  | none =>
    refine gives_bind (logsIn_verifyPinExact (.inr rfl)) (fun r result => ?_) fun _ _ => nofun
    obtain ⟨right, hit⟩ := result
    match r with
    | .invalid locked => exact absurd rfl (right locked)
    | .lockedOut => exact gives_pure nofun
    | .success slot =>
      -- the old form of the PIN is the PIN, so only the tag is written
      have canonical : normalizeLegacyPin p.str = p.str := by
        by_contra spelled
        exact Pin.auth_ne_legacyAuth spelled (hit slot rfl).symm
      have migrate : LogsIn serves t₀ p limit (m.migrateLegacyPinFormat uid p) fun _ => True := by
        unfold PinManager.migrateLegacyPinFormat
        rw [if_pos canonical]
        exact logsIn_writePinVersionTag
      refine gives_bind restart (fun _ _ => ?_) fun _ _ => nofun
      apply gives_attempt_bind migrate
      intro _ _
      exact gives_bind restart (fun _ _ => gives_pure nofun) fun _ _ => nofun

theorem login_keeps {m : PinManager} (start : Provisioning serves t₀ p limit t) :
    (login serves t₀ p limit).Keeps ((Request.verifyPin p).program m uid) t := by
  refine ⟨(t, t), ?_, id⟩
  refine Prog.wp_seq (Contract.wpx_gives _ logsIn_verifyPin (fun _ _ inv relied => relied inv)
    (fun _ _ _ _ _ only => only)
    TagOnly.refl start) ?_
  rintro r x guar ⟨-, right⟩
  refine ⟨guar, fun s _ locked same => right locked ?_⟩
  exact Reply.verifyPin.inj same

/-! ## The setup -/

/-- The judgement of a part of the setup. -/
abbrev Provisions {ε α : Type} (serves : Serves uid) (t₀ : Tpm) (p : Pin) (limit : UInt32)
    (y : Fallible NvCmd ε α) (Q : Except ε α → Tpm × Tpm → Prop) (z : Tpm × Tpm) : Prop :=
  wpx (Amid (provision serves t₀ p limit).acts (provision serves t₀ p limit).rely)
    (fun z => (provision serves t₀ p limit).guar z.1 z.2) y Q z

/-- The state is the one the setup would see alone, but for the tag. -/
def Apart (serves : Serves uid) (t₀ : Tpm) (p : Pin) (limit : UInt32) (s y : Tpm) : Prop :=
  Provisioning serves t₀ p limit s ∧ ∃ tag : TagState, y = s.set (tagHandle uid serves) tag.index

/-- The slot is written, and the tag is one of `T`. -/
def Stands (serves : Serves uid) (t₀ : Tpm) (p : Pin) (limit : UInt32) (T : TagState → Prop) (t : Tpm) :
    Prop :=
  ∃ tag, T tag ∧ t = t₀.put serves ⟨.written p.auth ⟨0, limit⟩, tag⟩

variable {ε α β : Type} {z : Tpm × Tpm}

theorem apart_rely {s y y' : Tpm} (apart : Apart serves t₀ p limit s y)
    (only : TagOnly serves t₀ p limit y y') :
    Apart serves t₀ p limit s y' := by
  obtain ⟨⟨slot, tag, stage, rfl⟩, tag', rfl⟩ := apart
  rw [put_set_tag rfl] at only
  obtain ⟨tag'', -, rfl⟩ := only slot tag' stage rfl
  refine ⟨⟨slot, tag, stage, rfl⟩, tag'', ?_⟩
  rw [put_set_tag rfl]

/-- Work on the slot goes as it goes alone. -/
theorem provisions_apart {y : PinM α} {f : α → PinM β} {a : α}
    {Q : Except PinError β → Tpm × Tpm → Prop} {s s' : Tpm}
    (on : OnlyX (NvCmd.On (slotHandle uid serves)) y)
    (alone : wpx (Faulty Tpm.exec fun _ => False) (Provisioning serves t₀ p limit) y
      (fun r t => r = .ok a ∧ t = s') s)
    (guar : (provision serves t₀ p limit).guar z.1 z.2) (apart : Apart serves t₀ p limit s z.2)
    (next : ∀ z, (provision serves t₀ p limit).guar z.1 z.2 → Apart serves t₀ p limit s' z.2 →
      Provisions serves t₀ p limit (f a) Q z) :
    Provisions serves t₀ p limit (y >>= f) Q z := by
  have stable : ∀ s y y', Apart serves t₀ p limit s y → (provision serves t₀ p limit).rely y y' →
      Apart serves t₀ p limit s y' :=
    fun _ _ _ => apart_rely
  have acts : ∀ c s y r y', NvCmd.On (slotHandle uid serves) c → Apart serves t₀ p limit s y →
      (provision serves t₀ p limit).acts c y r y' → Provisioning serves t₀ p limit (Tpm.exec c s).2 →
      (Tpm.exec c s).1 = r ∧ Apart serves t₀ p limit (Tpm.exec c s).2 y' ∧
      (provision serves t₀ p limit).guar y y' := by
    rintro c s y r y' on ⟨_, tag, rfl⟩ ⟨run, -⟩ kept
    have other : c.index ≠ some (tagHandle uid serves) :=
      fun named => slotHandle_ne_tagHandle (on _ named).symm
    rw [exec_set_other other] at run
    obtain ⟨rfl, rfl⟩ := Prod.mk.inj run
    refine ⟨rfl, ⟨kept, tag, rfl⟩, fun _ => ?_⟩
    obtain ⟨slot, tag', stage, same⟩ := kept
    refine ⟨slot, tag, stage, ?_⟩
    rw [same, put_set_tag rfl]
  refine wpx_bind.2
    (Prog.wp_mono (Contract.wp_apart _ stable acts on (Prog.wp_graph alone) guar apart) ?_)
  rintro r z guar ⟨_, ⟨rfl, rfl⟩, apart⟩
  exact next z guar apart

theorem stands_rely {T : TagState → Prop} {t t' : Tpm} (closed : TagState.Closed T)
    (stands : Stands serves t₀ p limit T t) (only : TagOnly serves t₀ p limit t t') :
    Stands serves t₀ p limit T t' := by
  obtain ⟨tag, one, rfl⟩ := stands
  obtain ⟨tag', becomes, rfl⟩ := only _ tag .written rfl
  exact ⟨tag', closed tag tag' one becomes, rfl⟩

/-- A command on the tag, once the slot is written. -/
theorem provisions_tpm {c : NvCmd} {T : TagState → Prop}
    {Q : Except TssError c.Out → Tpm × Tpm → Prop} (closed : TagState.Closed T)
    (guar : (provision serves t₀ p limit).guar z.1 z.2) (stands : Stands serves t₀ p limit T z.2)
    (act : ∀ tag r t', T tag →
      (provision serves t₀ p limit).acts c (t₀.put serves ⟨.written p.auth ⟨0, limit⟩, tag⟩) r t' →
      ∃ T', Stands serves t₀ p limit T' t' ∧ ∀ z, (provision serves t₀ p limit).guar z.1 z.2 →
        Stands serves t₀ p limit T' z.2 → Q r z) :
    Provisions serves t₀ p limit (tpm c) Q z := by
  refine ⟨guar, fun r y step => ?_⟩
  obtain ⟨relied, acts⟩ := step
  obtain ⟨tag, one, same⟩ := stands_rely closed stands relied
  rw [same] at acts
  obtain ⟨T', stands', next⟩ := act tag r y.2 one acts
  have here : (provision serves t₀ p limit).guar y.1 y.2 := by
    intro _
    obtain ⟨tag', -, same'⟩ := stands'
    exact ⟨_, tag', .written, same'⟩
  exact ⟨here, next y here stands'⟩

/-- The result and the tags it leaves are as `Φ` says. -/
def Leaves (serves : Serves uid) (t₀ : Tpm) (p : Pin) (limit : UInt32)
    (Φ : α → (TagState → Prop) → Prop) (r : α) (z : Tpm × Tpm) : Prop :=
  ∃ T, Φ r T ∧ TagState.Closed T ∧ Stands serves t₀ p limit T z.2

theorem provisions_quiet {c : NvCmd} {a : Except TssError c.Out} {T : TagState → Prop}
    {Q : Except TssError c.Out → Tpm × Tpm → Prop} (answer : ∀ t, Tpm.exec c t = (a, t))
    (closed : TagState.Closed T) (guar : (provision serves t₀ p limit).guar z.1 z.2)
    (stands : Stands serves t₀ p limit T z.2)
    (next : ∀ z, (provision serves t₀ p limit).guar z.1 z.2 → Stands serves t₀ p limit T z.2 → Q a z) :
    Provisions serves t₀ p limit (tpm c) Q z := by
  apply provisions_tpm closed guar stands
  rintro tag r t' one ⟨run, -⟩
  rw [answer] at run
  obtain ⟨rfl, rfl⟩ := Prod.mk.inj run
  exact ⟨T, ⟨tag, one, rfl⟩, next⟩

theorem provisions_session {f : TssM α} {T : TagState → Prop}
    {Φ : Except TssError α → (TagState → Prop) → Prop} (closed : TagState.Closed T)
    (guar : (provision serves t₀ p limit).guar z.1 z.2) (stands : Stands serves t₀ p limit T z.2)
    (body : ∀ z, (provision serves t₀ p limit).guar z.1 z.2 → Stands serves t₀ p limit T z.2 →
      Provisions serves t₀ p limit f (Leaves serves t₀ p limit Φ) z) :
    Provisions serves t₀ p limit (executeWithNullauthSession f) (Leaves serves t₀ p limit Φ) z := by
  unfold executeWithNullauthSession
  refine wpx_bind.2 (provisions_quiet (fun _ => rfl) closed guar stands fun z guar stands => ?_)
  refine wpx_bind.2 (wpx_attempt.2 (wpx_mono (body z guar stands) ?_))
  rintro r z guar ⟨T', result, closed', stands⟩
  refine wpx_bind.2 (provisions_quiet (fun _ => rfl) closed' guar stands fun z guar stands => ?_)
  exact ⟨guar, T', result, closed', stands⟩

theorem provisions_ofTss {f : TssM α} {Φ : Except PinError α → (TagState → Prop) → Prop}
    (body : Provisions serves t₀ p limit f
      (Leaves serves t₀ p limit fun r => Φ (r.mapError PinError.ofTss)) z) :
    Provisions serves t₀ p limit (ofTss f) (Leaves serves t₀ p limit Φ) z :=
  wpx_mapErr.2 body

/-- What writing the tag may come to: it is current, or it was missing and still may be. -/
inductive TagWritten : Except PinError Unit → (TagState → Prop) → Prop where
  | current : TagWritten (.ok ()) (· = .version PIN_VERSION_CURRENT)
  | missing : TagWritten (.error (.ofTss (.tss2 (some .handle)))) fun _ => True

theorem provisions_writeExisting {T : TagState → Prop} (closed : TagState.Closed T)
    (guar : (provision serves t₀ p limit).guar z.1 z.2) (stands : Stands serves t₀ p limit T z.2) :
    Provisions serves t₀ p limit (writePinVersionTagExisting (tagHandle uid serves) PIN_VERSION_CURRENT)
      (Leaves serves t₀ p limit fun r T' =>
        TagWritten r T' ∧ (r = .ok () ∨ ∃ tag, T tag ∧ tag = .absent)) z := by
  refine provisions_ofTss (provisions_session closed guar stands fun z guar stands => ?_)
  refine wpx_bind.2 (provisions_tpm closed guar stands ?_)
  rintro tag r t' one ⟨run, -⟩
  rw [exec_nvReadPublic_tag] at run
  obtain ⟨rfl, rfl⟩ := Prod.mk.inj run
  by_cases absent : tag = .absent
  · refine ⟨fun _ => True, ⟨tag, trivial, rfl⟩, fun z guar stands => ?_⟩
    rw [if_pos absent]
    exact ⟨guar, _, ⟨.missing, .inr ⟨tag, one, absent⟩⟩, TagState.closed_any, stands⟩
  · refine ⟨(· ≠ .absent), ⟨tag, absent, rfl⟩, fun z guar stands => ?_⟩
    rw [if_neg absent]
    refine provisions_tpm TagState.closed_present guar stands ?_
    rintro tag r t' present ⟨run, -⟩
    rw [exec_nvWrite_tag present] at run
    obtain ⟨rfl, rfl⟩ := Prod.mk.inj run
    refine ⟨(· = .version PIN_VERSION_CURRENT), ⟨_, rfl, rfl⟩, fun z guar stands => ?_⟩
    exact ⟨_, ⟨.current, .inl rfl⟩, TagState.closed_current, stands⟩

/-- The setup defines the tag, if it does not find it defined. -/
theorem provisions_define (guar : (provision serves t₀ p limit).guar z.1 z.2)
    (stands : Stands serves t₀ p limit (fun _ => True) z.2) :
    Provisions serves t₀ p limit (definePinVersionTag (tagHandle uid serves))
      (Leaves serves t₀ p limit fun r T => r = .ok () ∧ T = (· ≠ .absent)) z := by
  refine provisions_ofTss (provisions_session TagState.closed_any guar stands fun z guar stands => ?_)
  apply provisions_tpm TagState.closed_any guar stands
  rintro tag r t' - ⟨run, found⟩
  have absent : tag = .absent := by
    by_contra present
    apply found
    refine ⟨rfl, ?_⟩
    rw [put_tag]
    cases tag with
    | absent => exact absurd rfl present
    | _ => exact nofun
  rw [exec_nvDefineSpace_tag absent] at run
  obtain ⟨rfl, rfl⟩ := Prod.mk.inj run
  refine ⟨(· ≠ .absent), ⟨.unwritten, nofun, rfl⟩, fun z guar stands => ?_⟩
  exact ⟨_, ⟨rfl, rfl⟩, TagState.closed_present, stands⟩

theorem provisions_writePinVersionTag (guar : (provision serves t₀ p limit).guar z.1 z.2)
    (stands : Stands serves t₀ p limit (fun _ => True) z.2) :
    Provisions serves t₀ p limit (writePinVersionTag uid PIN_VERSION_CURRENT)
      (fun r z => r = .ok () ∧ Stands serves t₀ p limit (· = .version PIN_VERSION_CURRENT) z.2) z := by
  unfold writePinVersionTag
  rw [versionNvIndexForUid_eq serves, ofResult_ok_bind]
  refine wpx_bind.2
    (wpx_attempt.2 (wpx_mono (provisions_writeExisting TagState.closed_any guar stands) ?_))
  rintro r z guar ⟨T, ⟨written, -⟩, closed, stands⟩
  cases written with
  | current => exact ⟨guar, rfl, stands⟩
  | missing =>
    refine wpx_bind.2 (wpx_mono (provisions_define guar stands) ?_)
    rintro _ z guar ⟨_, ⟨rfl, rfl⟩, closed, stands⟩
    refine wpx_mono (provisions_writeExisting closed guar stands) ?_
    rintro r z guar ⟨T, ⟨written, here⟩, closed, stands⟩
    cases written with
    | current => exact ⟨rfl, stands⟩
    | missing =>
      obtain no | ⟨tag, present, absent⟩ := here
      · cases no
      · exact absurd absent present

theorem setupPin_provisions {m : PinManager} (fresh : Account.refusal (asBytes p.str) .absent = none)
    (limit_ : limit = m.policy.maxAttempts) (guar : (provision serves t₀ p limit).guar z.1 z.2)
    (start : ∃ tag, z.2 = t₀.put serves ⟨.absent, tag⟩) :
    Provisions serves t₀ p limit (m.setupPin uid p)
      (fun r z => r = .ok () ∧ Stands serves t₀ p limit (· = .version PIN_VERSION_CURRENT) z.2) z := by
  subst limit_
  obtain ⟨tag, start⟩ := start
  have there : ∀ {slot : SlotState}, SlotState.Stage p.auth m.policy.maxAttempts slot →
      Provisioning serves t₀ p m.policy.maxAttempts (t₀.put serves ⟨slot, tag⟩) :=
        fun stage => ⟨_, tag, stage, rfl⟩
  have apart : Apart serves t₀ p m.policy.maxAttempts (t₀.put serves ⟨.absent, tag⟩) z.2 := by
    refine ⟨there .absent, tag, ?_⟩
    rw [start, put_set_tag rfl]
  unfold PinManager.setupPin
  rw [nvIndexForUid_eq serves, ofResult_ok_bind]
  have read :
      wpx (Faulty Tpm.exec fun _ => False) (Provisioning serves t₀ p m.policy.maxAttempts)
        (readPinSlotOwner (slotHandle uid serves))
        (fun r t => r = .ok none ∧ t = t₀.put serves ⟨.absent, tag⟩)
        (t₀.put serves ⟨.absent, tag⟩) :=
    wpx_readPinSlotOwner (there .absent) ⟨rfl, rfl⟩ nofun
  refine provisions_apart readPinSlotOwner_on read guar apart fun z guar apart => ?_
  rw [if_neg nofun]
  have define : wpx (Faulty Tpm.exec fun _ => False) (Provisioning serves t₀ p m.policy.maxAttempts)
      (m.definePinSlot (slotHandle uid serves) (asBytes p.str))
      (fun r t => r = .ok () ∧ t = t₀.put serves ⟨.written p.auth ⟨0, m.policy.maxAttempts⟩, tag⟩)
      (t₀.put serves ⟨.absent, tag⟩) := by
    apply wpx_definePinSlot (there .absent) (fun _ => ⟨there .unwritten, there .written⟩)
    · intro err refused
      rw [fresh] at refused
      cases refused
    · exact fun _ => ⟨rfl, rfl⟩
    · exact fun no => no.elim
    · exact fun _ no => no.elim
  refine provisions_apart definePinSlot_on define guar apart fun z guar apart => ?_
  have restart :
      wpx (Faulty Tpm.exec fun _ => False)
        (Provisioning serves t₀ p m.policy.maxAttempts) m.restartContext
        (fun r t => r = .ok () ∧ t = t₀.put serves ⟨.written p.auth ⟨0, m.policy.maxAttempts⟩, tag⟩)
        (t₀.put serves ⟨.written p.auth ⟨0, m.policy.maxAttempts⟩, tag⟩) :=
    wpx_ofTss (wpx_tpm rfl (there .written) (there .written) ⟨rfl, rfl⟩ nofun)
  refine provisions_apart restartContext_on restart guar apart fun z guar apart => ?_
  have stands : Stands serves t₀ p m.policy.maxAttempts (fun _ => True) z.2 := by
    obtain ⟨-, tag', same⟩ := apart
    refine ⟨tag', trivial, ?_⟩
    rw [same, put_set_tag rfl]
  refine wpx_bind.2 (wpx_attempt.2 (wpx_mono (provisions_writePinVersionTag guar stands) ?_))
  rintro _ z guar ⟨rfl, stands⟩
  exact ⟨guar, rfl, stands⟩

theorem provision_keeps {m : PinManager} (fresh : Account.refusal (asBytes p.str) .absent = none)
    (start : t = t₀.put serves ⟨.absent, tag⟩) :
    (provision serves t₀ p m.policy.maxAttempts).Keeps ((Request.setupPin p).program m uid) t := by
  refine ⟨(t, t), ?_, TagOnly.refl⟩
  refine Prog.wp_seq (setupPin_provisions fresh rfl id ⟨tag, start⟩) ?_
  rintro _ z guar ⟨rfl, stands⟩
  refine ⟨guar, fun t' relied => ⟨rfl, ?_⟩⟩
  obtain ⟨_, rfl, same⟩ := stands_rely TagState.closed_current stands relied
  exact same

end Login

section Provisioned

variable {uid : UInt32} {serves : Serves uid} {t t' : Tpm} {p : Pin} {m : PinManager}
  {tag : TagState} {managers : List PinManager} {events : List (Nat × Event NvCmd Tpm)}
  {pool : List (Prog NvCmd Reply)}

/-- One setup, and verifications of the same PIN. -/
def logins (uid : UInt32) (m : PinManager) (managers : List PinManager) (p : Pin) :
    List (Prog NvCmd Reply) :=
  (Request.setupPin p).program m uid :: managers.map fun m => (Request.verifyPin p).program m uid

/-- The contracts of the processes. -/
def parties (serves : Serves uid) (t₀ : Tpm) (p : Pin) (limit : UInt32) : Nat → Contract NvCmd Tpm Reply
  | 0 => provision serves t₀ p limit
  | _ + 1 => login serves t₀ p limit

variable {limit : UInt32} {i j : Nat} {x y z : Tpm}

theorem parties_refl : (parties serves t p limit i).rely x x := by
  cases i with
  | zero => exact TagOnly.refl
  | succ i => exact id

theorem parties_trans (first : (parties serves t p limit i).rely x y)
    (second : (parties serves t p limit i).rely y z) :
    (parties serves t p limit i).rely x z := by
  cases i with
  | zero => exact TagOnly.trans first second
  | succ i => exact fun start => second (first start)

theorem parties_compatible (ne : i ≠ j) (guar : (parties serves t p limit i).guar x y) :
    (parties serves t p limit j).rely x y := by
  cases i with
  | zero =>
    cases j with
    | zero => exact absurd rfl ne
    | succ j => exact guar
  | succ i =>
    cases j with
    | zero => exact guar
    | succ j => exact TagOnly.provisioning guar

theorem parties_acts {c : NvCmd} {r : Answer c} (run : Tpm.exec c x = (r, y))
    (early : ¬ ReadsEarly serves p ⟨x, c, r, y⟩) (found : i = 0 → ¬ FindsTag serves ⟨x, c, r, y⟩) :
    (parties serves t p limit i).acts c x r y := by
  cases i with
  | zero => exact ⟨run, found rfl⟩
  | succ i => exact ⟨run, early⟩

theorem parties_provisioning (guar : (parties serves t p limit i).guar x y)
    (start : Provisioning serves t p limit x) :
    Provisioning serves t p limit y := by
  cases i with
  | zero => exact guar start
  | succ i => exact TagOnly.provisioning guar start

theorem parties_chain {n : Nat}
    (chain : Relation.ReflTransGen (fun x y => ∃ i, i < n ∧ (parties serves t p limit i).guar x y) x y)
    (start : Provisioning serves t p limit x) : Provisioning serves t p limit y := by
  induction chain with
  | refl => exact start
  | tail _ step ih =>
    obtain ⟨i, -, guar⟩ := step
    exact parties_provisioning guar ih

/-- In every run in which no verification reads a leading-zero PIN's slot too early and
the setup does not find the tag defined, no attempt is used, a setup that has finished
was told `Ok`, and no verification is told that the PIN is wrong. -/
theorem login_unpunished (start : t.Shows serves ⟨.absent, tag⟩)
    (accepted : Account.refusal (asBytes p.str) .absent = none)
    (run : Pool.Steps Tpm.exec.graph (logins uid m managers p) t events pool t')
    (early : ∀ x ∈ events, ¬ ReadsEarly serves p x.2)
    (found : ∀ x ∈ events, x.1 = 0 → ¬ FindsTag serves x.2) :
    (∀ reply, pool[0]? = some (Prog.ret reply) → reply = .setupPin (.ok ()) ∧
      t' = t.put serves ⟨.written p.auth ⟨0, m.policy.maxAttempts⟩, .version PIN_VERSION_CURRENT⟩) ∧
    (∀ (i : Nat) locked, pool[i]? ≠ some (Prog.ret (.verifyPin (.ok (.invalid locked))))) ∧
    ∀ x ∈ events, Provisioning serves t p m.policy.maxAttempts x.2.after := by
  have same : t = t.put serves ⟨.absent, tag⟩ := start.eq_put.symm
  have idle : Provisioning serves t p m.policy.maxAttempts t := ⟨_, tag, .absent, same⟩
  have begins : ∀ i prog, (logins uid m managers p)[i]? = some prog →
      (parties serves t p m.policy.maxAttempts i).Keeps prog t := by
    intro i prog at_
    cases i with
    | zero =>
      cases at_
      exact provision_keeps accepted same
    | succ i =>
      obtain ⟨m', -, rfl⟩ :
        ∃ m', managers[i]? = some m' ∧ (Request.verifyPin p).program m' uid = prog := by
        simpa [logins] using at_
      exact login_keeps idle
  obtain ⟨_, rfl, kept, chain, each⟩ :=
    @Pool.Steps.keeps NvCmd Tpm Tpm Reply _ Tpm.exec.graph _ _ _ _ _ id
      (parties serves t p m.policy.maxAttempts)
      (fun x => ¬ ReadsEarly serves p x.2 ∧ (x.1 = 0 → ¬ FindsTag serves x.2))
      (fun _ _ => parties_refl) (fun _ _ _ _ => parties_trans)
      (fun _ _ _ _ _ act may => ⟨_, rfl, parties_acts act may.1 may.2⟩)
      (fun _ _ ne _ _ => parties_compatible ne) run
      (fun x member => ⟨early x member, found x member⟩) t rfl begins
  refine ⟨fun reply done => (kept 0 _ done).ret, fun i locked done => ?_, fun x member => ?_⟩
  · cases i with
    | zero =>
      obtain ⟨no, -⟩ := (kept 0 _ done).ret
      cases no
    | succ i => exact (kept (i + 1) _ done).ret locked rfl
  · obtain ⟨y, y', -, rfl, guar, left, -⟩ := each x.1 x.2 member
    exact parties_provisioning guar (parties_chain left idle)

/-- A definition of the tag that may find it defined. -/
def Event.definesTag (serves : Serves uid) (event : Event NvCmd Tpm) : Bool :=
  match event.op with
  | .nvDefineSpace _ _ => (event.before.nv (tagHandle uid serves)).isSome
  | _ => false

theorem FindsTag.defines {event : Event NvCmd Tpm} (found : FindsTag serves event) :
    Event.definesTag serves event = true := by
  obtain ⟨op, there⟩ := found
  unfold Event.definesTag
  rw [op]
  exact Option.isSome_iff_ne_none.2 there

/-- A verification that meets the slot half-defined, and another after the setup. -/
def patientTurns : List (Nat × Option Fault) :=
  Pool.inTurn (List.replicate 10 0 ++ List.replicate 10 1 ++ List.replicate 20 0 ++ List.replicate 10 2)

/-- A verification that reads the tag, and compares once the setup is done. -/
def hastyTurns : List (Nat × Option Fault) :=
  Pool.inTurn (List.replicate 3 1 ++ List.replicate 30 0 ++ List.replicate 10 1)

/-- A verification that writes the tag between the two attempts of the setup to do so. -/
def helpfulTurns : List (Nat × Option Fault) :=
  Pool.inTurn (List.replicate 20 0 ++ List.replicate 30 1 ++ List.replicate 30 0)

theorem patient_unpunished :
    let run := Pool.play Tpm.exec patientTurns
      (logins 1000 defaultManager [defaultManager, defaultManager] plainPin) Tpm.empty
    run.1.map Prog.result? =
        [some (.setupPin (.ok ())), some (.verifyPin (.error (.notProvisioned 1000))),
          some (.verifyPin (.ok (.success ⟨0, 3⟩)))] ∧
      run.2 = Tpm.empty.put serves_thousand
        ⟨.written plainPin.auth ⟨0, 3⟩, .version PIN_VERSION_CURRENT⟩ := by
  have replies :
      (Pool.play Tpm.exec patientTurns
        (logins 1000 defaultManager [defaultManager, defaultManager] plainPin)
        Tpm.empty).1.map Prog.result? =
      [some (.setupPin (.ok ())), some (.verifyPin (.error (.notProvisioned 1000))),
        some (.verifyPin (.ok (.success ⟨0, 3⟩)))] := by decide +kernel
  refine ⟨replies, ?_⟩
  have done : ∃ p,
      (Pool.play Tpm.exec patientTurns
        (logins 1000 defaultManager [defaultManager, defaultManager] plainPin)
        Tpm.empty).1[0]? = some p ∧ p.result? = some (.setupPin (.ok ())) := by
    have first := congrArg (·[0]?) replies
    simpa only [List.getElem?_map, List.getElem?_cons_zero, Option.map_eq_some_iff] using first
  obtain ⟨p, done, result⟩ := done
  rw [Prog.eq_ret_of_result? result] at done
  have shows_ : Tpm.empty.Shows serves_thousand ⟨.absent, .absent⟩ := ⟨rfl, rfl⟩
  have undefined :
      ∀ x ∈ Pool.events Tpm.exec patientTurns
          (logins 1000 defaultManager [defaultManager, defaultManager] plainPin) Tpm.empty,
        Event.definesTag serves_thousand x.2 = false := by decide +kernel
  have accepted : Account.refusal (asBytes plainPin.str) .absent = none := by decide +kernel
  have canonical : normalizeLegacyPin plainPin.str = plainPin.str := by decide
  have unpunished := login_unpunished shows_ accepted (Pool.steps_play Pool.inTurn_calm)
    (fun x _ early => early.2.1 (Pin.legacyAuth_canonical canonical)) fun x member _ found => by
      have same := undefined x member
      rw [found.defines] at same
      cases same
  exact (unpunished.1 _ done).2

/-- A verification that reads the tag too early counts as a failure, and one that writes
it makes the setup undo itself, without leading zeros in the PIN. -/
theorem login_punished :
    (¬ ∀ (uid : UInt32) (serves : Serves uid) (m : PinManager) (managers : List PinManager)
      (p : Pin) (t t' : Tpm) (tag : TagState) (events : List (Nat × Event NvCmd Tpm))
      (pool : List (Prog NvCmd Reply)), t.Shows serves ⟨.absent, tag⟩ →
        Account.refusal (asBytes p.str) .absent = none →
        Pool.Steps Tpm.exec.graph (logins uid m managers p) t events pool t' →
          ∀ (i : Nat) (locked : Bool),
            pool[i]? ≠ some (Prog.ret (.verifyPin (.ok (.invalid locked))))) ∧
    ¬ ∀ (uid : UInt32) (serves : Serves uid) (m : PinManager) (managers : List PinManager) (p : Pin)
      (t t' : Tpm) (tag : TagState) (events : List (Nat × Event NvCmd Tpm))
      (pool : List (Prog NvCmd Reply)), t.Shows serves ⟨.absent, tag⟩ →
        Account.refusal (asBytes p.str) .absent = none → normalizeLegacyPin p.str = p.str →
          Pool.Steps Tpm.exec.graph (logins uid m managers p) t events pool t' →
            ∀ reply, pool[0]? = some (Prog.ret reply) → reply = .setupPin (.ok ()) := by
  have shows_ : Tpm.empty.Shows serves_thousand ⟨.absent, .absent⟩ := ⟨rfl, rfl⟩
  constructor
  · intro claim
    have told :
        (Pool.play Tpm.exec hastyTurns (logins 1000 defaultManager [defaultManager] chosenPin)
          Tpm.empty).1[1]?.bind Prog.result? = some (.verifyPin (.ok (.invalid false))) := by
      decide +kernel
    obtain ⟨p, at_, result⟩ := Option.bind_eq_some_iff.1 told
    rw [Prog.eq_ret_of_result? result] at at_
    exact claim 1000 serves_thousand defaultManager [defaultManager] chosenPin _ _ _ _ _ shows_
      (by decide +kernel) (Pool.steps_play Pool.inTurn_calm) 1 false at_
  · intro claim
    have told : ∃ reply, reply ≠ .setupPin (.ok ()) ∧
        (Pool.play Tpm.exec helpfulTurns (logins 1000 defaultManager [defaultManager] plainPin)
          Tpm.empty).1[0]?.bind Prog.result? = some reply := by
      refine ⟨.setupPin (.error (.tpmError (.tagWrite (.ofTss (.tss2 (some .nvDefined)))))), nofun, ?_⟩
      decide +kernel
    obtain ⟨reply, other, told⟩ := told
    obtain ⟨p, at_, result⟩ := Option.bind_eq_some_iff.1 told
    rw [Prog.eq_ret_of_result? result] at at_
    exact other (claim 1000 serves_thousand defaultManager [defaultManager] plainPin _ _ _ _ _ shows_
      (by decide +kernel) (by decide) (Pool.steps_play Pool.inTurn_calm) reply at_)

end Provisioned

end Pinpam
