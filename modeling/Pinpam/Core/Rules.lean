import Pinpam.Core.Commands

/-!
# Rules for the operations of the manager

For each operation a rule for its weakest precondition on a TPM that may fail a
command wherever `P` holds: one premise for the state the operation ends in when no
command fails, and one for each state a failing command may leave it in. `C` is what
a kill may leave behind.
-/

namespace Pinpam
set_option autoImplicit false
open Pinpam.Effect Pinpam.Effect.Fallible

section Rules

variable {P C : Tpm → Prop} {t : Tpm}

/-! ## Sessions -/

section Session

variable {α : Type}

/-- One command with a known answer. -/
theorem wpx_tpm {c : NvCmd} {r : Except TssError c.Out} {t' : Tpm}
    {Q : Except TssError c.Out → Tpm → Prop} (answer : Tpm.exec c t = (r, t')) (crash : C t)
    (crash' : C t') (done : Q r t') (failed : P t → ∀ f : Fault, Q (.error f.error) t) :
    wpx (Faulty Tpm.exec P) C (tpm c) Q t := by
  refine wpx_faulty_op crash ?_ failed
  rw [answer]
  exact ⟨crash', done⟩

theorem wpx_ofTss {x : TssM α} {Q : Except PinError α → Tpm → Prop}
    (body : wpx (Faulty Tpm.exec P) C x (fun r t' => Q (r.mapError PinError.ofTss) t') t) :
    wpx (Faulty Tpm.exec P) C (ofTss x) Q t :=
  wpx_mapErr.2 body

/-- A null-auth session adds two commands without an effect; the last one overrides
the result when it fails. -/
theorem wpx_session {f : TssM α} {Q : Except TssError α → Tpm → Prop} (crash : C t)
    (failed : P t → ∀ f : Fault, Q (.error f.error) t)
    (body : wpx (Faulty Tpm.exec P) C f
      (fun r t' => Q r t' ∧ (P t' → ∀ f : Fault, Q (.error f.error) t')) t) :
    wpx (Faulty Tpm.exec P) C (executeWithNullauthSession f) Q t := by
  unfold executeWithNullauthSession
  refine wpx_bind.2 (wpx_tpm rfl crash crash ?_ fun may f => ⟨crash, failed may f⟩)
  refine wpx_bind.2 (wpx_attempt.2 (wpx_mono body fun r t' crash' post => ?_))
  refine wpx_bind.2 (wpx_tpm rfl crash' crash' ?_ fun may f => ⟨crash', post.2 may f⟩)
  exact ⟨crash', post.1⟩

end Session

variable {uid : UInt32} {serves : Serves uid} {acc : Account}

/-! ## Reading -/

theorem wpx_readPinSlotOwner {Q : Except PinError (Option PinData) → Tpm → Prop}
    (crash : C (t.put serves acc)) (done : Q (.ok acc.slot.data) (t.put serves acc))
    (failed : P (t.put serves acc) → ∀ f : Fault, Q (.error (.ofTss f.error)) (t.put serves acc)) :
    wpx (Faulty Tpm.exec P) C (readPinSlotOwner (slotHandle uid serves)) Q (t.put serves acc) := by
  have fault : P (t.put serves acc) → ∀ f : Fault, C (t.put serves acc) ∧
      Q (.error (.ofTss f.error)) (t.put serves acc) :=
    fun may f => ⟨crash, failed may f⟩
  unfold readPinSlotOwner readFull
  refine wpx_bind.2 (wpx_attempt.2 (wpx_session crash fault ?_))
  refine wpx_bind.2
    (wpx_bind.2 (wpx_tpm exec_nvReadPublic_slot crash crash ?_ fun may f =>
      ⟨crash, crash, fault may f, fault⟩))
  obtain ⟨slot, tag⟩ := acc
  cases slot with
  | absent => exact ⟨crash, crash, ⟨crash, done⟩, fault⟩
  | unwritten b =>
    refine wpx_tpm exec_nvRead_slot_owner crash crash ?_ fun may f => ⟨crash, fault may f, fault⟩
    exact ⟨crash, ⟨crash, done⟩, fault⟩
  | written b p =>
    refine wpx_tpm exec_nvRead_slot_owner crash crash ?_ fun may f => ⟨crash, fault may f, fault⟩
    simp only [PinData.fromBytes_toBytes]
    exact ⟨crash, ⟨crash, done⟩, fault⟩

theorem wpx_readPinVersionTag {Q : Except PinError (Option UInt8) → Tpm → Prop}
    (crash : C (t.put serves acc)) (done : Q (.ok acc.tag.read) (t.put serves acc))
    (failed : P (t.put serves acc) → ∀ f : Fault, Q (.error (.ofTss f.error)) (t.put serves acc)) :
    wpx (Faulty Tpm.exec P) C (readPinVersionTag uid) Q (t.put serves acc) := by
  have fault : P (t.put serves acc) → ∀ f : Fault, C (t.put serves acc) ∧
      Q (.error (.ofTss f.error)) (t.put serves acc) :=
    fun may f => ⟨crash, failed may f⟩
  unfold readPinVersionTag readFull
  rw [versionNvIndexForUid_eq serves]
  refine wpx_bind.2 ⟨crash, wpx_bind.2 (wpx_attempt.2 (wpx_session crash fault ?_))⟩
  refine wpx_bind.2 (wpx_tpm exec_nvReadPublic_tag crash crash ?_ fun may f =>
    ⟨crash, fault may f, fault⟩)
  obtain ⟨slot, tag⟩ := acc
  cases tag with
  | absent => exact ⟨crash, ⟨crash, done⟩, fault⟩
  | unwritten =>
    refine wpx_tpm exec_nvRead_tag crash crash ?_ fun may f => ⟨fault may f, fault⟩
    exact ⟨⟨crash, done⟩, fault⟩
  | version v =>
    refine wpx_tpm exec_nvRead_tag crash crash ?_ fun may f => ⟨fault may f, fault⟩
    exact ⟨⟨crash, done⟩, fault⟩

/-! ## The version tag -/

/-- The states a tag passes through on its way to being written. -/
inductive TagState.Becomes (v : UInt8) (tag : TagState) : TagState → Prop where
  | same : Becomes v tag tag
  | defined (absent : tag = .absent) : Becomes v tag .unwritten
  | written : Becomes v tag (.version v)

theorem TagState.Becomes.trans {v : UInt8} {tag tag' tag'' : TagState} (first : tag.Becomes v tag')
    (second : tag'.Becomes v tag'') :
    tag.Becomes v tag'' := by
  cases second with
  | same => exact first
  | written => exact .written
  | defined absent =>
    cases first with
    | same => exact .defined absent
    | defined => cases absent
    | written => cases absent

/-- From the tags of `T` a tag that is written moves to tags of `T`. -/
def TagState.Closed (T : TagState → Prop) : Prop :=
  ∀ tag tag' : TagState, T tag → tag.Becomes PIN_VERSION_CURRENT tag' → T tag'

theorem TagState.closed_any : Closed fun _ => True := fun _ _ _ _ => trivial

theorem TagState.closed_present : Closed (· ≠ .absent) := by
  rintro tag tag' present (_ | absent | _)
  · exact present
  · exact absurd absent present
  · exact nofun

theorem TagState.closed_current : Closed (· = .version PIN_VERSION_CURRENT) := by
  rintro _ tag' rfl becomes
  cases becomes with
  | same => rfl
  | defined absent => cases absent
  | written => rfl

theorem wpx_writePinVersionTagExisting {v : UInt8} {Q : Except PinError Unit → Tpm → Prop}
    (crash : ∀ tag, acc.tag.Becomes v tag → C (t.put serves { acc with tag }))
    (done : acc.tag ≠ .absent → Q (.ok ()) (t.put serves { acc with tag := .version v }))
    (missing : acc.tag = .absent → Q (.error (.ofTss (.tss2 (some .handle)))) (t.put serves acc))
    (failed : ∀ tag, (tag = .absent → acc.tag = .absent) → acc.tag.Becomes v tag →
      P (t.put serves { acc with tag }) →
      ∀ f : Fault, Q (.error (.ofTss f.error)) (t.put serves { acc with tag })) :
    wpx (Faulty Tpm.exec P) C (writePinVersionTagExisting (tagHandle uid serves) v) Q
      (t.put serves acc) := by
  have fault := failed acc.tag id .same
  unfold writePinVersionTagExisting
  refine wpx_ofTss (wpx_session (crash _ .same) fault ?_)
  refine wpx_bind.2 (wpx_tpm exec_nvReadPublic_tag (crash _ .same) (crash _ .same) ?_
    fun may f => ⟨crash _ .same, fault may f, fault⟩)
  by_cases absent : acc.tag = .absent
  · rw [if_pos absent]
    exact ⟨crash _ .same, missing absent, fault⟩
  · rw [if_neg absent]
    refine wpx_tpm (exec_nvWrite_tag absent) (crash _ .same) (crash _ .written) ?_ fun may f =>
      ⟨fault may f, fault⟩
    exact ⟨done absent, failed _ nofun .written⟩

theorem wpx_definePinVersionTag {Q : Except PinError Unit → Tpm → Prop} (crash : C (t.put serves acc))
    (crash' : acc.tag = .absent → C (t.put serves { acc with tag := .unwritten }))
    (done : acc.tag = .absent → Q (.ok ()) (t.put serves { acc with tag := .unwritten }))
    (present : acc.tag ≠ .absent → Q (.error (.ofTss (.tss2 (some .nvDefined)))) (t.put serves acc))
    (failed : P (t.put serves acc) → ∀ f : Fault, Q (.error (.ofTss f.error)) (t.put serves acc))
    (failed' : acc.tag = .absent → P (t.put serves { acc with tag := .unwritten }) →
      ∀ f : Fault, Q (.error (.ofTss f.error)) (t.put serves { acc with tag := .unwritten })) :
    wpx (Faulty Tpm.exec P) C (definePinVersionTag (tagHandle uid serves)) Q (t.put serves acc) := by
  unfold definePinVersionTag
  refine wpx_ofTss (wpx_session crash failed ?_)
  by_cases absent : acc.tag = .absent
  · refine wpx_tpm (exec_nvDefineSpace_tag absent) crash (crash' absent) ?_ fun may f =>
      ⟨failed may f, failed⟩
    exact ⟨done absent, failed' absent⟩
  · refine wpx_tpm (exec_nvDefineSpace_tag_present absent) crash crash ?_ fun may f =>
      ⟨failed may f, failed⟩
    exact ⟨present absent, failed⟩

/-- The tag ends written; where the operation throws, a command failed in the very
state that is left. -/
theorem wpx_writePinVersionTag {v : UInt8} {Q : Except PinError Unit → Tpm → Prop}
    (crash : ∀ tag, acc.tag.Becomes v tag → C (t.put serves { acc with tag }))
    (done : Q (.ok ()) (t.put serves { acc with tag := .version v }))
    (failed : ∀ tag, acc.tag.Becomes v tag → P (t.put serves { acc with tag }) →
      ∀ e, Q (.error e) (t.put serves { acc with tag })) :
    wpx (Faulty Tpm.exec P) C (writePinVersionTag uid v) Q (t.put serves acc) := by
  unfold writePinVersionTag
  rw [versionNvIndexForUid_eq serves]
  -- after an error the tag is defined and written anew; a tag that is there makes that fail
  have again : ∀ tag, acc.tag.Becomes v tag → (tag = .absent → acc.tag = .absent) →
      (tag ≠ .absent → P (t.put serves { acc with tag })) →
      wpx (Faulty Tpm.exec P) C
        (do definePinVersionTag (tagHandle uid serves); writePinVersionTagExisting (tagHandle uid serves) v) Q
        (t.put serves { acc with tag }) := by
    intro tag becomes was may
    refine wpx_bind.2 (wpx_definePinVersionTag (crash _ becomes) ?_ ?_ ?_ ?_ ?_)
    · exact fun absent => crash _ (.defined (was absent))
    · intro absent
      refine wpx_writePinVersionTagExisting ?_ (fun _ => done) (fun missing => nomatch missing) ?_
      · rintro _ (_ | _ | _)
        · exact crash _ (.defined (was absent))
        · exact crash _ (.defined (was absent))
        · exact crash _ .written
      · rintro _ - (_ | _ | _) may f
        · exact failed _ (.defined (was absent)) may _
        · exact failed _ (.defined (was absent)) may _
        · exact failed _ .written may _
    · exact fun present => ⟨crash _ becomes, failed _ becomes (may present) _⟩
    · exact fun may f => ⟨crash _ becomes, failed _ becomes may _⟩
    · exact fun absent may f =>
        ⟨crash _ (.defined (was absent)), failed _ (.defined (was absent)) may _⟩
  refine wpx_bind.2 ⟨crash _ .same, wpx_bind.2 (wpx_attempt.2 ?_)⟩
  refine wpx_writePinVersionTagExisting crash (fun _ => ⟨crash _ .written, done⟩) ?_ ?_
  · exact fun absent => again _ .same id fun present => absurd absent present
  · exact fun tag was becomes may f => again tag becomes was fun _ => may

theorem wpx_deletePinVersionTag {Q : Except PinError Unit → Tpm → Prop}
    (crash : C (t.put serves acc)) (crash' : C (t.put serves { acc with tag := .absent }))
    (done : Q (.ok ()) (t.put serves { acc with tag := .absent }))
    (failed : ∀ tag, tag = acc.tag ∨ tag = .absent → P (t.put serves { acc with tag }) →
      ∀ f : Fault, Q (.error (.ofTss f.error)) (t.put serves { acc with tag })) :
    wpx (Faulty Tpm.exec P) C (deletePinVersionTag uid) Q (t.put serves acc) := by
  have fault : P (t.put serves acc) → ∀ f : Fault, C (t.put serves acc) ∧
      Q (.error (.ofTss f.error)) (t.put serves acc) :=
    fun may f => ⟨crash, failed _ (.inl rfl) may f⟩
  unfold deletePinVersionTag
  rw [versionNvIndexForUid_eq serves]
  refine wpx_bind.2 ⟨crash, wpx_bind.2 (wpx_attempt.2 (wpx_session crash fault ?_))⟩
  refine wpx_bind.2 (wpx_tpm exec_nvReadPublic_tag crash crash ?_ fun may f =>
    ⟨crash, fault may f, fault⟩)
  by_cases absent : acc.tag = .absent
  · rw [if_pos absent]
    obtain ⟨slot, tag⟩ := acc
    subst absent
    exact ⟨crash, ⟨crash, done⟩, fault⟩
  · rw [if_neg absent]
    refine wpx_tpm (exec_nvUndefineSpace_tag absent) crash crash' ?_ fun may f => ⟨fault may f, fault⟩
    exact ⟨⟨crash', done⟩, fun may f => ⟨crash', failed _ (.inr rfl) may f⟩⟩

/-! ## Deleting -/

/-- The slot goes first; a failure to delete the tag is not reported. -/
theorem wpx_deletePinAdmin {Q : Except PinError Unit → Tpm → Prop} (crash : C (t.put serves acc))
    (crash' : acc.slot ≠ .absent → ∀ tag, tag = acc.tag ∨ tag = .absent →
      C (t.put serves ⟨.absent, tag⟩))
    (missing : acc.slot = .absent → Q (.error (.notProvisioned uid)) (t.put serves acc))
    (done : acc.slot ≠ .absent → Q (.ok ()) (t.put serves ⟨.absent, .absent⟩))
    (done' : acc.slot ≠ .absent → P (t.put serves ⟨.absent, acc.tag⟩) →
      Q (.ok ()) (t.put serves ⟨.absent, acc.tag⟩))
    (failed : P (t.put serves acc) → ∀ f : Fault, Q (.error (.ofTss f.error)) (t.put serves acc))
    (failed' : acc.slot ≠ .absent → P (t.put serves ⟨.absent, acc.tag⟩) →
      ∀ f : Fault, Q (.error (.ofTss f.error)) (t.put serves ⟨.absent, acc.tag⟩)) :
    wpx (Faulty Tpm.exec P) C (deletePinAdmin uid) Q (t.put serves acc) := by
  have fault : P (t.put serves acc) → ∀ f : Fault, C (t.put serves acc) ∧
      Q (.error (.ofTss f.error)) (t.put serves acc) :=
    fun may f => ⟨crash, failed may f⟩
  unfold deletePinAdmin
  rw [nvIndexForUid_eq serves]
  refine wpx_bind.2 ⟨crash, wpx_bind.2 (wpx_attempt.2 (wpx_session crash fault ?_))⟩
  refine wpx_bind.2 (wpx_tpm exec_nvReadPublic_slot crash crash ?_ fun may f =>
    ⟨crash, fault may f, fault⟩)
  by_cases absent : acc.slot = .absent
  · rw [if_pos absent]
    exact ⟨crash, ⟨crash, missing absent⟩, fault⟩
  · rw [if_neg absent]
    have gone := crash' absent
    refine wpx_tpm (exec_nvUndefineSpace_slot absent) crash (gone _ (.inl rfl)) ⟨?_, ?_⟩ fun may f =>
      ⟨fault may f, fault⟩
    · refine wpx_bind.2
        (wpx_attempt.2 (wpx_deletePinVersionTag (gone _ (.inl rfl)) (gone _ (.inr rfl)) ?_ ?_))
      · exact ⟨gone _ (.inr rfl), done absent⟩
      · rintro _ (rfl | rfl) may f
        · exact ⟨gone _ (.inl rfl), done' absent may⟩
        · exact ⟨gone _ (.inr rfl), done absent⟩
    · exact fun may f => ⟨gone _ (.inl rfl), failed' absent may f⟩

/-! ## Comparing -/

theorem wpx_verifyPinExact {bytes : Bytes} {Q : Except PinError VerificationResult → Tpm → Prop}
    (crash : C (t.put serves acc))
    (crash' : C (t.put serves { acc with slot := acc.slot.compared (.ofBytes bytes) }))
    (done : Q (acc.verifyPinExact uid bytes).1 (t.put serves (acc.verifyPinExact uid bytes).2))
    (failed : ∀ slot, slot = acc.slot ∨ slot = acc.slot.compared (.ofBytes bytes) →
      P (t.put serves { acc with slot }) →
      ∀ f : Fault, Q (.error (.ofTss f.error)) (t.put serves { acc with slot }))
    (unread : (acc.verifyPinExact uid bytes).1 = .ok (.invalid true) →
      P (t.put serves (acc.verifyPinExact uid bytes).2) →
      Q (.ok (.invalid false)) (t.put serves (acc.verifyPinExact uid bytes).2)) :
    wpx (Faulty Tpm.exec P) C (verifyPinExact uid bytes) Q (t.put serves acc) := by
  have fault : P (t.put serves acc) → ∀ f : Fault, C (t.put serves acc) ∧
      Q (.error (.ofTss f.error)) (t.put serves acc) :=
    fun may f => ⟨crash, failed _ (.inl rfl) may f⟩
  unfold verifyPinExact
  rw [nvIndexForUid_eq serves]
  refine wpx_bind.2 ⟨crash,
    wpx_bind.2 (wpx_ofTss (wpx_tpm exec_nvReadPublic_slot crash crash ?_ fault))⟩
  obtain ⟨slot, tag⟩ := acc
  by_cases absent : slot = .absent
  · subst absent
    exact ⟨crash, done⟩
  rw [if_neg absent]
  refine wpx_bind.2 (wpx_attempt.2 (wpx_session crash fault ?_))
  by_cases long : authMaxSize < bytes.length
  · rw [Auth.tryFrom, if_neg (Nat.not_le.2 long)]
    rw [Account.verifyPinExact, if_pos ⟨absent, long⟩] at done
    exact wpx_bind.2 ⟨crash, crash, ⟨crash, done⟩, fault⟩
  rw [Auth.tryFrom, if_pos (Nat.not_lt.1 long)]
  simp only [Account.verifyPinExact, long, and_false, if_false] at done unread
  refine wpx_bind.2 ⟨crash, wpx_tpm exec_nvRead_slot_index crash crash' ⟨?_, ?_⟩ fun may f =>
    ⟨fault may f, fault⟩⟩
  · cases slot with
    | absent => exact absurd rfl absent
    | unwritten b => exact ⟨crash', done⟩
    | written b p =>
      by_cases locked : p.locked
      · simp only [SlotState.verdict, locked, if_true] at done ⊢
        exact ⟨crash', done⟩
      by_cases hit : Auth.ofBytes bytes = b
      · subst hit
        simp only [SlotState.verdict, locked, if_true, if_false] at done ⊢
        simp only [Except.bind, PinData.fromBytes_toBytes]
        exact ⟨crash', done⟩
      · have counted :
            (SlotState.compared (.ofBytes bytes) (.written b p)).data = some (p.after false).data := by
          simp only [SlotState.compared, if_neg locked, SlotState.data, hit, decide_false]
        simp only [SlotState.verdict, locked, hit, if_false] at done unread ⊢
        refine wpx_bind.2 (wpx_attempt.2 (wpx_readPinSlotOwner crash' ?_ fun may f => ⟨crash', ?_⟩))
        · simp only [counted]
          exact ⟨crash', done⟩
        -- a count that cannot be read back is reported as not locked
        · cases limit : (p.after false).data.atLimit with
          | false => rwa [limit] at done
          | true => exact unread (by rw [limit]) may
  · exact fun may f => ⟨crash', failed _ (.inr rfl) may f⟩

/-! ## Without an effect -/

theorem readPinSlotOwner_quiet {i : NvIndexTpmHandle} : OnlyX NvCmd.Quiet (readPinSlotOwner i) := by
  unfold readPinSlotOwner readFull
  refine onlyX_bind
    (onlyX_attempt (onlyX_bind (onlyX_op trivial) fun _ => onlyX_bind (onlyX_attempt ?_) fun _ => ?_))
    fun r => ?_
  · refine onlyX_bind (onlyX_bind (onlyX_op trivial) fun _ => onlyX_op trivial) fun data => ?_
    split
    · exact onlyX_pure
    · exact onlyX_throw
  · exact onlyX_bind (onlyX_op trivial) fun _ => onlyX_ofResult
  · split
    · exact onlyX_pure
    · exact onlyX_pure
    · exact onlyX_pure
    · exact onlyX_throw

theorem readPinVersionTag_quiet : OnlyX NvCmd.Quiet (readPinVersionTag uid) := by
  unfold readPinVersionTag readFull
  refine onlyX_bind onlyX_ofResult fun i => ?_
  refine onlyX_bind
    (onlyX_attempt (onlyX_bind (onlyX_op trivial) fun _ => onlyX_bind (onlyX_attempt ?_) fun _ => ?_))
    fun r => ?_
  · exact onlyX_bind (onlyX_op trivial) fun _ => onlyX_op trivial
  · exact onlyX_bind (onlyX_op trivial) fun _ => onlyX_ofResult
  · split
    · split
      · exact onlyX_throw
      · exact onlyX_pure
    · exact onlyX_pure
    · exact onlyX_pure
    · exact onlyX_throw

theorem quiet_step {P : Tpm → Prop} {c : NvCmd} {r : Answer c} {t' : Tpm} (quiet : c.Quiet)
    (step : Faulty Tpm.exec P c t r t') : t' = t := by
  cases step with
  | failed => rfl
  | done => exact exec_quiet quiet

theorem wpx_quiet {ε α : Type} {P : Tpm → Prop} {x : Fallible NvCmd ε α} (only : OnlyX NvCmd.Quiet x) :
    wpx (Faulty Tpm.exec P) (· = t) x (fun _ t' => t' = t) t := by
  have keeps : ∀ c s r s', NvCmd.Quiet c → s = t → Faulty Tpm.exec P c s r s' → s' = t :=
    fun c s r s' quiet same step => (quiet_step quiet step).trans same
  exact wpx_only keeps only rfl

end Rules

end Pinpam
