import Pinpam.Core.Lockout
import Pinpam.Pam.FirstPass
import Pinpam.Pam.Framing
import Pinpam.Util.Reports

/-!
# What a success means

The module answers with a success exactly if a test of the helper reported one, and such
a report means that the TPM took the PIN that the helper read as the `authValue` of the
slot of the user. The TPM may fail any command of the helper and have other users in
between, and the helper may be killed.
-/

namespace Pinpam
set_option autoImplicit false
open Pinpam.Effect Pinpam.Effect.Fallible

/-! ## The helper -/

/-- The commands that a process sent, with what the TPM made of them. -/
abbrev Record := List (Event NvCmd Tpm)

/-- A TPM in any state at each command, which it may fail, with the record of the commands. -/
def Observed : Behaviour NvCmd Record := fun c record r record' =>
  ∃ t t', Faulty Tpm.exec (fun _ => True) c t r t' ∧ record' = record ++ [⟨t, c, r, t'⟩]

/-- Any environment of a process that reads its lines from a given input. -/
def Stdin.fed : Behaviour HostCmd Stdin
  | .tell _, s, _, s' => s' = s
  | .result json, s, _, s' => s' = { s with console := s.console.prints json }
  | .flush, s, _, s' => s' = s
  | .echo _, s, _, s' => s' = s
  | .readLine, s, r, s' =>
    match r with
    | .ok line => s.readLine = (.ok line, s')
    | .error _ => s'.console = s.console
  | .masterKey _, s, _, s' => s'.input = s.input ∧ s'.console.printed = s.console.printed

/-- A run of the helper on this input: what it answers, and what it sent. A run that is cut
short may still have printed its result. -/
inductive HelperRuns (uidOf : Str → Option UInt32) (command : Commands) (text : Str) :
    Except Str Output → Record → Prop where
  | answered {env : Env} {keys : KeyStore} {record : Record} {s : Stdin}
      {o : Option (Except Stop Unit)} {code : Nat} {stdout : Option Json}
      (machine : env.machine = true) (names : env.uidOf = uidOf)
      (ends : Ends (Observed.sum Stdin.fed) (fun _ => True) (Util.main env command).run
        ([], .piped text keys) o (record, s))
      (printed : stdout = none ∨ stdout = s.console.printed.head?) :
      HelperRuns uidOf command text (.ok ⟨code, stdout⟩) record
  | failed (e : Str) (record : Record) : HelperRuns uidOf command text (.error e) record

/-! ## What a report says -/

/-- The report of a test that went well. -/
def ReportsOk (r : Except Str Output) : Prop :=
  ∃ output json, r = .ok output ∧ output.stdout = some json ∧ fromJson json =
  some (.ok () : PinResult Unit)

/-- The tag of the user is read. -/
def NvCmd.ReadsTag {uid : UInt32} (serves : Serves uid) (c : NvCmd) : Prop :=
  c = .nvReadPublic (tagHandle uid serves) ∨ ∃ size, c = .nvRead .owner (tagHandle uid serves) size 0

/-- The bytes of the PIN in the format of the slot, which the tag of the user says. -/
def Tpm.form {uid : UInt32} (t : Tpm) (serves : Serves uid) (pin : Pin) : Bytes :=
  match (t.nv (tagHandle uid serves)).bind (·.area.contents) with
  | some _ => asBytes pin.str
  | none => asBytes (normalizeLegacyPin pin.str)

/-- The TPM takes the `authValue` for the index, which is not locked. -/
inductive Takes (i : NvIndexTpmHandle) (a : Auth) : Event NvCmd Tpm → Prop where
  | mk {t t' : Tpm} {x : NvIndex} {data : Bytes} (slot : t.nv i = some x)
      (unlocked : x.unavailable = none) (same : x.authValue = a) :
      Takes i a ⟨t, .nvRead (.index a) i PinData.SIZE 0, .ok data, t'⟩

/-- The format of the slot was looked up, and then the TPM took the PIN in this format. -/
inductive Took {uid : UInt32} (serves : Serves uid) (pin : Pin) : Record → Prop where
  | mk {earlier later : Record} {seen taken : Event NvCmd Tpm} (before : seen ∈ earlier)
      (tag : seen.op.ReadsTag serves)
      (takes : Takes (slotHandle uid serves) (.ofBytes (seen.before.form serves pin)) taken) :
      Took serves pin (earlier ++ taken :: later)

/-- A helper makes the PIN of the first line of the text. -/
def ReadsPin (text : Str) (pin : Pin) : Prop :=
  ∃ policy line rest, readLines text = line :: rest ∧ Pin.new line policy = .ok pin

/-- The slot of exactly this user accepted the PIN that the helper read. -/
def Confirms (uidOf : Str → Option UInt32) (username text : Str) (record : Record) : Prop :=
  ∃ uid, ∃ serves : Serves uid, ∃ pin, uidOf username = some uid ∧ ReadsPin text pin ∧
  Took serves pin record

section Commands

variable {uid : UInt32} {serves : Serves uid} {pin : Pin} {record record' : Record}
  {i : NvIndexTpmHandle} {a : Auth} {size offset : Nat} {data bytes : Bytes} {t t' : Tpm}

theorem Took.mono (took : Took serves pin record) (grows : record <+: record') :
    Took serves pin record' := by
  obtain ⟨more, rfl⟩ := grows
  cases took with
  | mk before tag takes =>
    rw [List.append_assoc]
    exact .mk before tag takes

/-- The rule for one command. -/
theorem wpx_observed {c : NvCmd} {Q : Except TssError c.Out → Record → Prop}
    (step : ∀ t r t', Faulty Tpm.exec (fun _ => True) c t r t' → Q r (record ++ [⟨t, c, r, t'⟩])) :
    wpx Observed (fun _ => True) (tpm c) Q record := by
  refine ⟨trivial, ?_⟩
  rintro r record' ⟨t, t', act, rfl⟩
  exact ⟨trivial, step t r t' act⟩

/-- A record only grows. -/
theorem wpx_grows {ε α : Type} {x : Fallible NvCmd ε α} :
    wpx Observed (fun _ => True) x (fun _ record' => record <+: record') record := by
  have keeps : ∀ c before r after, record <+: before → Observed c before r after →
      record <+: after := by
    rintro c before r after grows ⟨t, t', -, rfl⟩
    exact grows.trans (List.prefix_append _ _)
  exact Prog.wp_behaviour (Prog.wp_invariant keeps x.run (List.prefix_refl _))
    (fun _ _ _ _ step => step) fun _ _ => trivial

/-- A session, for what stays true as the record grows and says nothing of a command that failed. -/
theorem wpx_session_observed {α : Type} {f : TssM α} {Q : Except TssError α → Record → Prop}
    (grows : ∀ r before after, Q r before → before <+: after → Q r after)
    (failed : ∀ (f : Fault) record, Q (.error f.error) record)
    (body : ∀ record', record <+: record' → wpx Observed (fun _ => True) f Q record') :
    wpx Observed (fun _ => True) (executeWithNullauthSession f) Q record := by
  unfold executeWithNullauthSession
  apply wpx_bind.2 (wpx_observed _)
  intro t r t' act
  cases act with
  | failed _ _ fault => exact ⟨trivial, failed fault _⟩
  | done =>
    apply wpx_bind.2 (wpx_attempt.2 (wpx_mono (body _ (List.prefix_append _ _)) _))
    intro r record' _ post
    apply wpx_bind.2 (wpx_observed _)
    intro t r' t' act
    cases act with
    | failed _ _ fault => exact ⟨trivial, failed fault _⟩
    | done => exact ⟨trivial, grows _ _ _ post (List.prefix_append _ _)⟩

/-! ### The format -/

/-- The format as a run sees it. -/
def Saw (serves : Serves uid) (tagged : Bool) (record : Record) : Prop :=
  ∃ seen ∈ record, seen.op.ReadsTag serves ∧ ∀ pin, seen.before.form serves pin =
    if tagged then asBytes pin.str else asBytes (normalizeLegacyPin pin.str)

theorem Saw.mono {tagged : Bool} (saw : Saw serves tagged record) (grows : record <+: record') :
    Saw serves tagged record' := by
  obtain ⟨seen, member, rest⟩ := saw
  exact ⟨seen, grows.subset member, rest⟩

/-- The last command of a run showed the format. -/
theorem saw_last {tagged : Bool} {c : NvCmd} {r : Except TssError c.Out} (reads : c.ReadsTag serves)
    (here : ((t.nv (tagHandle uid serves)).bind (·.area.contents)).isSome = tagged) :
    Saw serves tagged (record ++ [⟨t, c, r, t'⟩]) := by
  refine ⟨_, List.mem_append_right _ (List.mem_singleton_self _), reads, fun pin => ?_⟩
  subst here
  unfold Tpm.form
  dsimp only
  split
  · next found => rw [found]; rfl
  · next found => rw [found]; rfl

/-- What the answer to a read of the tag says of the format. -/
structure Told (serves : Serves uid) (r : Except TssError Bytes) (record : Record) : Prop where
  read : ∀ data, r = .ok data → Saw serves true record
  missing : r = .error (.tss2 (some .handle)) ∨ r = .error (.tss2 (some .nvUninitialized)) →
    Saw serves false record

theorem told_failed {r : Except TssError Bytes} (nothing : ∀ data, r ≠ .ok data)
    (handle : r ≠ .error (.tss2 (some .handle)))
    (uninitialized : r ≠ .error (.tss2 (some .nvUninitialized))) : Told serves r record where
  read data ok := absurd ok (nothing data)
  missing := by
    rintro (same | same)
    · exact absurd same handle
    · exact absurd same uninitialized

theorem told_read : Told serves (Tpm.exec (.nvRead .owner (tagHandle uid serves) size 0) t).1
    (record ++ [⟨t, .nvRead .owner (tagHandle uid serves) size 0,
      (Tpm.exec (.nvRead .owner (tagHandle uid serves) size 0) t).1, t'⟩]) := by
  have reads : NvCmd.ReadsTag serves (.nvRead .owner (tagHandle uid serves) size 0) := .inr ⟨size, rfl⟩
  cases found : t.nv (tagHandle uid serves) with
  | none =>
    have absent : (Tpm.exec (.nvRead .owner (tagHandle uid serves) size 0) t).1 = refuse .handle := by
      simp [Tpm.exec, Tpm.nvRead, found]
    exact ⟨by simp [absent, refuse], fun _ => saw_last reads (by simp [found])⟩
  | some x =>
    have answer : (Tpm.exec (.nvRead .owner (tagHandle uid serves) size 0) t).1 =
        if x.attributes.ownerRead then x.read size 0 else refuse .nvAuthorization := by
      simp only [Tpm.exec, Tpm.nvRead, found]
    rw [answer]
    split
    · unfold NvIndex.read
      cases contents : x.area.contents with
      | none => exact ⟨by simp [refuse], fun _ => saw_last reads (by simp [found, contents])⟩
      | some b =>
        dsimp only
        split
        · exact ⟨fun _ _ => saw_last reads (by simp [found, contents]), by simp⟩
        · exact told_failed (by simp [refuse]) (by simp [refuse]) (by simp [refuse])
    · exact told_failed (by simp [refuse]) (by simp [refuse]) (by simp [refuse])

/-- What a version says of the format. -/
theorem readPinVersionTag_saw :
    wpx Observed (fun _ => True) (readPinVersionTag uid)
      (fun r record' => ∀ version, r = .ok version → Saw serves version.isSome record') record := by
  unfold readPinVersionTag readFull
  rw [versionNvIndexForUid_eq serves, ofResult_ok_bind]
  have told : wpx Observed (fun _ => True) (executeWithNullauthSession (do
      let size ← tpm (.nvReadPublic (tagHandle uid serves))
      tpm (.nvRead .owner (tagHandle uid serves) size 0))) (Told serves) record := by
    have failed : ∀ (f : Fault) (record : Record), Told serves (.error f.error) record :=
      fun f record => told_failed (by simp) (by simp [Fault.error]) (by simp [Fault.error])
    apply wpx_session_observed _ failed
    · intro record' _
      apply wpx_bind.2 (wpx_observed _)
      intro t r t' act
      cases act with
      | failed _ _ f => exact ⟨trivial, failed f _⟩
      | done =>
        cases found : t.nv (tagHandle uid serves) with
        | none =>
          have absent : (Tpm.exec (.nvReadPublic (tagHandle uid serves)) t).1 = refuse .handle := by
            simp [Tpm.exec, found]
          rw [absent]
          exact ⟨trivial, by simp [refuse], fun _ => saw_last (.inl rfl) (by simp [found])⟩
        | some x =>
          have present :
              (Tpm.exec (.nvReadPublic (tagHandle uid serves)) t).1 = .ok x.area.dataSize := by
              simp [Tpm.exec, found]
          rw [present]
          apply wpx_observed
          intro t r t' act
          cases act with
          | failed _ _ f => exact failed f _
          | done => exact told_read
    · exact fun r before after told grows =>
        ⟨fun data ok => (told.read data ok).mono grows, fun gone => (told.missing gone).mono grows⟩
  apply wpx_bind.2 (wpx_attempt.2 (wpx_mono told _))
  intro r record' _ told
  dsimp only
  split
  · next data =>
    split
    · exact ⟨trivial, by simp⟩
    · next length =>
      refine ⟨trivial, ?_⟩
      rintro version ok
      cases ok
      have some_ : data.head?.isSome = true := by
        cases data with
        | nil => simp [PIN_VERSION_TAG_SIZE] at length
        | cons => rfl
      rw [some_]
      exact told.read data rfl
  · refine ⟨trivial, ?_⟩
    rintro version ok
    cases ok
    exact told.missing (.inl rfl)
  · refine ⟨trivial, ?_⟩
    rintro version ok
    cases ok
    exact told.missing (.inr rfl)
  · exact ⟨trivial, by simp⟩

/-! ### The comparison -/

/-- An `authValue` that was taken is that of the index, which was not locked. -/
theorem nvRead_taken (answer : (Tpm.exec (.nvRead (.index a) i size offset) t).1 = .ok data) :
    ∃ x, t.nv i = some x ∧ x.unavailable = none ∧ x.authValue = a := by
  simp only [Tpm.exec, Tpm.nvRead] at answer
  cases found : t.nv i with
  | none => simp [found, refuse] at answer
  | some x =>
    simp only [found] at answer
    refine ⟨x, rfl, ?_⟩
    by_cases readable : x.attributes.authRead = true
    · simp only [readable, if_true, NvIndex.present] at answer
      cases unavailable : x.unavailable with
      | some kind => simp [unavailable, refuse] at answer
      | none =>
        by_cases same : a = x.authValue
        · exact ⟨rfl, same.symm⟩
        · simp [unavailable, same, refuse] at answer
    · simp [readable, refuse] at answer

/-- Since a record, the TPM took these bytes for the slot. -/
def TakenSince (serves : Serves uid) (bytes : Bytes) (record record' : Record) : Prop :=
  ∃ earlier taken later, record' = earlier ++ taken :: later ∧ record <+: earlier ∧
  Takes (slotHandle uid serves) (.ofBytes bytes) taken

theorem TakenSince.mono {start : Record} (since : TakenSince serves bytes start record)
    (grows : record <+: record') :
    TakenSince serves bytes start record' := by
  obtain ⟨earlier, taken, later, rfl, from_, takes⟩ := since
  obtain ⟨more, rfl⟩ := grows
  exact ⟨earlier, taken, later ++ more, by simp, from_, takes⟩

theorem TakenSince.took {tagged : Bool} (saw : Saw serves tagged record)
    (since : TakenSince serves (if tagged then asBytes pin.str
      else asBytes (normalizeLegacyPin pin.str)) record record') :
    Took serves pin record' := by
  obtain ⟨earlier, taken, later, rfl, from_, takes⟩ := since
  obtain ⟨seen, member, tag, form⟩ := saw
  rw [← form pin] at takes
  exact .mk (from_.subset member) tag takes

/-- The session in which the `authValue` is presented. -/
theorem wpx_presented {start : Record} (from_ : start <+: record) :
    wpx Observed (fun _ => True)
      (executeWithNullauthSession (do
        let auth ← ofResult (Auth.tryFrom bytes)
        tpm (.nvRead (.index auth) (slotHandle uid serves) PinData.SIZE 0)))
      (fun r record' => ∀ data, r = .ok data → TakenSince serves bytes start record') record := by
  apply wpx_session_observed
  · exact fun r before after since grows data ok => (since data ok).mono grows
  · exact fun f record data ok => by cases ok
  · intro record' grows
    cases presented : Auth.tryFrom bytes with
    | error e => exact ⟨trivial, by simp⟩
    | ok auth =>
      have same : auth = .ofBytes bytes := by
        unfold Auth.tryFrom at presented
        split at presented <;> cases presented
        rfl
      subst same
      rw [ofResult_ok_bind]
      apply wpx_observed
      intro t r t' act data ok
      cases act with
      | failed => cases ok
      | done =>
        obtain ⟨x, slot, unlocked, value⟩ := nvRead_taken ok
        rw [ok]
        exact ⟨record', _, [], rfl, from_.trans grows, .mk slot unlocked value⟩

theorem verifyPinExact_taken :
    wpx Observed (fun _ => True) (verifyPinExact uid bytes)
      (fun r record' => ∀ data, r = .ok (.success data) → TakenSince serves bytes record record')
        record := by
  unfold verifyPinExact
  rw [nvIndexForUid_eq serves, ofResult_ok_bind]
  apply wpx_bind.2 (wpx_mapErr.2 (wpx_mono wpx_grows _))
  rintro (e | size) record' _ grows
  · exact ⟨trivial, by simp⟩
  apply wpx_bind.2 (wpx_attempt.2 (wpx_mono (wpx_presented grows) _))
  intro r record'' _ presented
  dsimp only
  split
  · next v verified =>
    refine ⟨trivial, ?_⟩
    rintro data -
    cases r with
    | error e => cases verified
    | ok bytes' => exact presented bytes' rfl
  · apply wpx_bind.2 (wpx_attempt.2 (wpx_mono wpx_any _))
    exact fun _ _ _ _ => ⟨trivial, by simp⟩
  · apply wpx_bind.2 (wpx_attempt.2 (wpx_mono wpx_any _))
    exact fun _ _ _ _ => ⟨trivial, by simp⟩
  · exact ⟨trivial, by simp⟩
  · exact ⟨trivial, by simp⟩
  · exact ⟨trivial, by simp⟩

/-- A verification that succeeds. -/
theorem verifyPin_took {m : PinManager} : wpx Observed (fun _ => True) (m.verifyPin uid pin)
    (fun r record' => ∀ data, r = .ok (.success data) → Took serves pin record') record := by
  unfold PinManager.verifyPin
  apply wpx_bind.2 (wpx_mono (@readPinVersionTag_saw uid serves record) _)
  rintro (e | version) record' _ saw
  · exact ⟨trivial, by simp⟩
  have saw := saw version rfl
  cases version with
  | some version =>
    dsimp only
    split
    · exact ⟨trivial, by simp⟩
    · apply wpx_mono (@verifyPinExact_taken uid serves record' _)
      exact fun r record'' _ taken data ok => (taken data ok).took saw
  | none =>
    dsimp only
    apply wpx_bind.2 (wpx_mono (@verifyPinExact_taken uid serves record' _) _)
    rintro (e | (data | locked | _)) record'' _ taken
    · exact ⟨trivial, by simp⟩
    · -- what comes after it cannot take the comparison back
      have took := (taken data rfl).took saw
      apply wpx_mono wpx_grows
      exact fun r record₃ _ grows _ _ => took.mono grows
    · exact ⟨trivial, by simp⟩
    · exact ⟨trivial, by simp⟩

theorem verifyPin_takes {m : PinManager} : wpx Observed (fun _ => True) (m.verifyPin uid pin)
    (fun r record' => ∀ data, r = .ok (.success data) → ∃ serves : Serves uid, Took serves pin record')
      record := by
  by_cases serves : Serves uid
  · apply wpx_mono (@verifyPin_took uid serves pin record m)
    exact fun r record' _ took data ok => ⟨serves, took data ok⟩
  · rw [verifyPin_overflow serves]
    exact ⟨trivial, by simp⟩

end Commands

/-! ## The test -/

section Test

variable {env : Env} {uidOf : Str → Option UInt32} {username text : Str} {keys : KeyStore}
  {record : Record} {s : Stdin} {α : Type}

/-- Nothing was printed yet. -/
def Unprinted (x : Record × Stdin) : Prop := x.2.console.printed = []

/-- What was printed does not say more than what the TPM accepted. -/
def Honest (uidOf : Str → Option UInt32) (username text : Str) (x : Record × Stdin) : Prop :=
  ∀ json ∈ x.2.console.printed, fromJson json = some (.ok () : PinResult Unit) →
  Confirms uidOf username text x.1

theorem wpx_manage_fed {x : PinM α} {Φ : PinResult α → Record → Prop}
    (body : wpx Observed (fun _ => True) x Φ record) (unprinted : s.console.printed = []) :
    wpx (Observed.sum Stdin.fed) Unprinted (manage x) (fun r y => y.2 = s ∧ Φ r y.1) (record, s) := by
  apply wpx_inl.2
  apply wpx_mono (Prog.wp_behaviour body (fun _ _ _ _ step => step) fun _ _ => unprinted)
  exact fun r record' _ post => ⟨rfl, post⟩

/-- The first line of an input that was piped. -/
theorem readLine_piped {line : Str} {s' : Stdin}
    (read : (Stdin.piped text keys).readLine = (.ok line, s')) :
    s'.console.printed = [] ∧ ∀ policy pin, Pin.new line policy = .ok pin → ReadsPin text pin := by
  unfold Stdin.piped Stdin.readLine at read
  cases lines : readLines text with
  | nil =>
    rw [lines] at read
    cases read
    refine ⟨rfl, fun policy pin made => ?_⟩
    -- past the end there is no PIN
    exact absurd (Pin.new_eq_ok.1 made).2 pin.nonempty
  | cons first rest =>
    rw [lines] at read
    cases read
    exact ⟨rfl, fun policy pin made => ⟨policy, line, rest, lines, made⟩⟩

theorem wpx_promptPin_fed (machine : env.machine = true) {prompt : Text}
    {attempts : Option (UInt32 × UInt32)} :
    wpx (Observed.sum Stdin.fed) Unprinted (Util.promptPin env prompt attempts)
      (fun r y => Unprinted y ∧ ∀ pin, r = .ok pin → ReadsPin text pin) (record, .piped text keys) := by
  unfold Util.promptPin
  rw [if_pos machine]
  have here : Unprinted (record, .piped text keys) := rfl
  refine wpx_bind.2 (wpx_inr.2 ⟨here, fun r s' act => ?_⟩)
  cases r with
  | error e =>
    have unprinted : s'.console.printed = [] := by rw [show s'.console = _ from act]; rfl
    exact ⟨unprinted, unprinted, unprinted, by simp⟩
  | ok line =>
    obtain ⟨unprinted, reads⟩ := readLine_piped act
    exact ⟨unprinted, unprinted, unprinted, fun pin made => reads _ pin made⟩

theorem testPin_confirms (machine : env.machine = true) :
    wpx (Observed.sum Stdin.fed) Unprinted (Util.testPin env username)
      (fun r y => Unprinted y ∧ (r = .ok () → Confirms env.uidOf username text y.1)) (record,
        .piped text keys) := by
  unfold Util.testPin
  rcases getUid_cases env username with missing | ⟨uid, resolved, found⟩
  · rw [missing]
    exact ⟨rfl, rfl, by simp⟩
  rw [found, ofResult_ok_bind]
  split
  · exact ⟨rfl, rfl, by simp⟩
  have silent : ∀ {text}, Util.human env text = pure () := human_machine machine
  apply wpx_bind.2 (wpx_mono (wpx_manage_fed wpx_any rfl) _)
  rintro (e | manager) ⟨record, _⟩ _ ⟨rfl, -⟩
  · exact ⟨rfl, rfl, by simp⟩
  dsimp only
  unfold Util.getAttemptInfo
  rw [bind_assoc]
  apply wpx_bind.2 (wpx_mono (wpx_manage_fed wpx_any rfl) _)
  rintro (e | slot) ⟨record, _⟩ _ ⟨rfl, -⟩
  · exact ⟨rfl, rfl, by simp⟩
  dsimp only
  rw [pure_bind]
  cases slot.map AttemptInfo.fromPinData with
  | none =>
    dsimp only
    rw [silent]
    exact ⟨rfl, rfl, by simp⟩
  | some info =>
    dsimp only
    split
    · rw [silent]
      exact ⟨rfl, rfl, by simp⟩
    apply wpx_bind.2 (wpx_mono (wpx_promptPin_fed machine) _)
    rintro (e | pin) ⟨record, s⟩ _ ⟨unprinted, reads⟩
    · exact ⟨unprinted, unprinted, by simp⟩
    have reads := reads pin rfl
    apply wpx_bind.2 (wpx_mono (wpx_manage_fed verifyPin_takes unprinted) _)
    rintro (e | result) ⟨record, _⟩ _ ⟨rfl, takes⟩
    · exact ⟨unprinted, unprinted, by simp⟩
    dsimp only
    cases result with
    | success data =>
      obtain ⟨serves, took⟩ := takes data rfl
      exact ⟨unprinted, unprinted, fun _ => ⟨uid, serves, pin, resolved, reads, took⟩⟩
    | invalid locked => exact ⟨unprinted, unprinted, by simp⟩
    | lockedOut => exact ⟨unprinted, unprinted, by simp⟩

/-- However the process ends, its report is honest. -/
theorem main_honest (machine : env.machine = true) :
    wpx (Observed.sum Stdin.fed) (Honest env.uidOf username text)
      (Util.main env (.test (some username))) (fun _ _ => True)
      (record, .piped text keys) := by
  have vacuous : ∀ x : Record × Stdin, Unprinted x → Honest env.uidOf username text x := by
    intro x unprinted json printed
    rw [unprinted] at printed
    cases printed
  have named : Util.main env (.test (some username)) =
      Util.report env (Util.testPin env username) := rfl
  rw [named]
  unfold Util.report
  have tested := @testPin_confirms env username text keys record machine
  apply wpx_bind.2
    (wpx_attempt.2 (wpx_mono (Prog.wp_behaviour tested (fun _ _ _ _ step => step) vacuous) _))
  rintro r ⟨record', s⟩ _ ⟨unprinted, confirms⟩
  have before := vacuous _ unprinted
  dsimp only
  unfold Util.handleResult
  rw [if_pos machine]
  refine wpx_bind.2 (wpx_inr.2 ⟨before, fun _ s' act => ?_⟩)
  obtain rfl : s' = { s with console := s.console.prints (toJson r) } := act
  have after : Honest env.uidOf username text (record',
      { s with console := s.console.prints (toJson r) }) := by
    intro json printed reported
    rw [Console.prints_printed, show s.console.printed = [] from unprinted, List.nil_append,
      List.mem_singleton] at printed
    subst printed
    rw [fromJson_toJson_unit] at reported
    exact confirms (Option.some.inj reported)
  cases r with
  | ok u => exact ⟨after, after, trivial⟩
  | error e => exact ⟨after, after, trivial⟩

/-- What a report of the helper is worth. -/
theorem HelperRuns.confirms {r : Except Str Output}
    (runs : HelperRuns uidOf (.test (some username)) text r record) (reported : ReportsOk r) :
    Confirms uidOf username text record := by
  obtain ⟨output, json, rfl, stdout, ok⟩ := reported
  cases runs with
  | answered machine names ends printed =>
    subst names
    obtain ⟨honest, -, -⟩ := Prog.wp_ends (main_honest machine) ends
    rcases printed with none | head
    · rw [none] at stdout
      cases stdout
    · refine honest json ?_ ok
      rw [head] at stdout
      exact List.mem_of_mem_head? stdout

end Test

/-! ## The session -/

/-- A session in which the helper resolves names as the module does, with the records of its
runs. -/
def Pam.helped (uidOf : Str → Option UInt32) : Behaviour PamCmd (List Record)
  | .sendMessage .., records, r, records' => records' = records ∧ r ≠ .error .success
  | .converse _, records, r, records' => records' = records ∧ r ≠ .error .success
  | .pinutilStatus username, records, r, records' =>
    ∃ record, records' = records ++ [record] ∧ HelperRuns uidOf (.status (some username)) [] r record
  | .pinutilTest username text, records, r, records' =>
    ∃ record, records' = records ++ [record] ∧ HelperRuns uidOf (.test (some username)) text r record

/-- The event is a test that was reported to have gone well. -/
def Event.ReportedOk {S : Type} : Event PamCmd S → Prop
  | ⟨_, .pinutilTest .., r, _⟩ => ReportsOk r
  | _ => False

/-- Where a text for the helper comes from. -/
inductive Origin {S : Type} (policy : PinPolicy) (args : ModuleArgs) (authtok : Option Str)
    (events : List (Event PamCmd S)) :
    Str → Prop where
  | token {token : Str} {pin : Pin} (wants : args.wantsFirstPass = true) (cached : authtok = some token)
      (made : Pin.new token policy = .ok pin) : Origin policy args authtok events (pin.str ++ ['\n'])
  | typed {x y : S} {prompt : PamText} {input : Str} {pin : Pin}
      (asked : (⟨x, .converse prompt, .ok (.text input), y⟩ : Event PamCmd S) ∈ events)
      (made : Pin.new (trim input) policy = .ok pin) :
      Origin policy args authtok events (pin.str ++ ['\n'])

/-- A test is one of the user, of such a text. -/
def Event.Sends {S : Type} (policy : PinPolicy) (username : Str) (args : ModuleArgs)
    (authtok : Option Str) (events : List (Event PamCmd S)) : Event PamCmd S → Prop
  | ⟨_, .pinutilTest name text, _, _⟩ => name = username ∧ Origin policy args authtok events text
  | _ => True

/-- What the events of a run say of its return code and of its tests. -/
structure Tested {S : Type} (policy : PinPolicy) (username : Str) (args : ModuleArgs)
    (authtok : Option Str) (events : List (Event PamCmd S)) (code : PamReturnCode) : Prop where
  reported : code = .success ↔ ∃ event ∈ events, Event.ReportedOk event
  sent : ∀ event ∈ events, Event.Sends policy username args authtok events event

/-- The events but the messages. -/
def hear {S : Type} (heard : List (Event PamCmd S)) : Event PamCmd S → List (Event PamCmd S)
  | ⟨_, .sendMessage .., _, _⟩ => heard
  | event => heard ++ [event]

/-- What is claimed of a session. -/
structure Sound (policy : PinPolicy) (username : Str) (args : List Str)
    (uidOf : Str → Option UInt32) (authtok : Option Str)
    (events : List (Event PamCmd (List Record))) (code : PamReturnCode) : Prop where
  /-- every other outcome has another code -/
  reported : code = .success ↔ ∃ event ∈ events, Event.ReportedOk event
  accepted : code = .success → ∃ records text r record,
    (⟨records, .pinutilTest username text, r, records ++ [record]⟩ : Event PamCmd (List Record)) ∈
      events ∧ ReportsOk r ∧
      Origin policy (.fromStrs args) authtok events text ∧ Confirms uidOf username text record
  once : (Ledger.ofEvents events).asked.length ≤ 1
  unprompted : "use_first_pass".toList ∈ args → (Ledger.ofEvents events).asked = []

section Session

variable {S : Type} {R : Behaviour PamCmd S} {policy : PinPolicy} {username : Str}
  {args : ModuleArgs} {authtok : Option Str} {uidOf : Str → Option UInt32} {used limit : UInt32}
  {heard events : List (Event PamCmd S)} {event : Event PamCmd S} {s s' : S} {code : PamReturnCode}
  {text : Str}

theorem ofReport_code {r : PinResult Unit} :
    (PinutilTestOutcome.ofReport r).code = .success ↔ r = .ok () := by
  cases r with
  | ok u => exact ⟨fun _ => rfl, fun _ => rfl⟩
  | error e =>
    unfold PinutilTestOutcome.ofReport
    split <;> simp_all [PinutilTestOutcome.code]

theorem testCode_success {r : Except Str Output} :
    testCode (pinutilTest r) = .success ↔ ReportsOk r := by
  cases r with
  | error e => simp [pinutilTest, testCode, ReportsOk]
  | ok output =>
    simp only [pinutilTest, ReportsOk, Except.ok.injEq, exists_and_left, exists_eq_left']
    cases output.stdout with
    | none => simp [testCode]
    | some json =>
      cases report : (fromJson json : Option (PinResult Unit)) with
      | none => simp [testCode, report]
      | some r => simp [testCode, ofReport_code, report]

/-! ### What is heard -/

theorem mem_hear (member : event ∈ events.foldl hear heard) : event ∈ heard ∨ event ∈ events := by
  induction events generalizing heard with
  | nil => exact .inl member
  | cons first events ih =>
    rcases ih member with here | later
    · have last : event ∈ heard ∨ event = first := by
        unfold hear at here
        split at here
        · exact .inl here
        · simpa using here
      rcases last with before | rfl
      · exact .inl before
      · exact .inr List.mem_cons_self
    · exact .inr (List.mem_cons_of_mem _ later)

theorem hear_mono (member : event ∈ heard) : event ∈ events.foldl hear heard := by
  induction events generalizing heard with
  | nil => exact member
  | cons first events ih =>
    apply ih
    unfold hear
    split
    · exact member
    · exact List.mem_append_left _ member

/-- No test is missed. -/
theorem mem_hear_test {x y : S} {name : Str} {r : Except Str Output}
    (member : (⟨x, .pinutilTest name text, r, y⟩ : Event PamCmd S) ∈ events) :
    (⟨x, .pinutilTest name text, r, y⟩ : Event PamCmd S) ∈ events.foldl hear heard := by
  induction events generalizing heard with
  | nil => cases member
  | cons first events ih =>
    rcases List.mem_cons.1 member with rfl | later
    · rw [List.foldl_cons]
      apply hear_mono
      exact List.mem_append_right _ (List.mem_singleton_self _)
    · exact ih later

theorem Origin.mono (origin : Origin policy args authtok heard text) (more : heard ⊆ events) :
    Origin policy args authtok events text := by
  cases origin with
  | token wants cached made => exact .token wants cached made
  | typed asked made => exact .typed (more asked) made

theorem Event.Sends.mono (sends : Event.Sends policy username args authtok heard event)
    (more : heard ⊆ events) :
    Event.Sends policy username args authtok events event := by
  obtain ⟨x, op, r, y⟩ := event
  cases op with
  | pinutilTest name text => exact ⟨sends.1, sends.2.mono more⟩
  | _ => trivial

/-! ### The phases -/

theorem spoken_hear (spoken : Spoken R) : Spoken (Folding hear R) :=
  spoken_folding spoken fun _ _ _ _ _ _ => rfl

theorem candid_hear (candid : Candid R) : Candid (Folding hear R) where
  sent style text x y act := candid.sent style text x.1 y.1 act.1
  asked prompt x y act := candid.asked prompt x.1 y.1 act.1

/-- No test went well so far. -/
structure Unsure (policy : PinPolicy) (username : Str) (args : ModuleArgs) (authtok : Option Str)
    (heard : List (Event PamCmd S)) :
    Prop where
  silent : ∀ event ∈ heard, ¬ Event.ReportedOk event
  sent : ∀ event ∈ heard, Event.Sends policy username args authtok heard event

theorem Unsure.tested (unsure : Unsure policy username args authtok heard) (other : code ≠ .success) :
    Tested policy username args authtok heard code where
  reported := ⟨fun same => absurd same other,
    fun ⟨event, member, ok⟩ => absurd ok (unsure.silent event member)⟩
  sent := unsure.sent

/-- An event that is no test. -/
theorem Unsure.snoc (unsure : Unsure policy username args authtok heard)
    (silent : ¬ Event.ReportedOk event)
    (sends : Event.Sends policy username args authtok (heard ++ [event]) event) :
    Unsure policy username args authtok (heard ++ [event]) := by
  constructor
  · intro event' member
    rcases List.mem_append.1 member with before | last
    · exact unsure.silent event' before
    · rwa [List.mem_singleton.1 last]
  · intro event' member
    rcases List.mem_append.1 member with before | last
    · exact (unsure.sent event' before).mono (List.subset_append_left _ _)
    · rwa [List.mem_singleton.1 last]

/-- A test decides the code. -/
theorem Unsure.test {x y : S} {r : Except Str Output}
    (unsure : Unsure policy username args authtok heard)
    (origin : Origin policy args authtok heard text) :
    Tested policy username args authtok (heard ++ [⟨x, .pinutilTest username text, r, y⟩])
      (testCode (pinutilTest r)) := by
  constructor
  · rw [testCode_success]
    constructor
    · exact fun ok => ⟨_, List.mem_append_right _ (List.mem_singleton_self _), ok⟩
    · rintro ⟨event, member, ok⟩
      rcases List.mem_append.1 member with before | last
      · exact absurd ok (unsure.silent event before)
      · rwa [List.mem_singleton.1 last] at ok
  · intro event member
    rcases List.mem_append.1 member with before | last
    · exact (unsure.sent event before).mono (List.subset_append_left _ _)
    · rw [List.mem_singleton.1 last]
      exact ⟨rfl, origin.mono (List.subset_append_left _ _)⟩

theorem tested_second (spoken : Spoken R) (candid : Candid R)
    (unsure : Unsure policy username args authtok heard) :
    wpx (Folding hear R) (fun _ => True) (Pam.secondPhase policy username used limit)
      (fun r x => Tested policy username args authtok x.2 (returnCode r)) (s, heard) := by
  apply wpx_secondPhase (spoken_hear spoken)
  · exact fun _ => unsure.tested (by simp [returnCode])
  · rintro - prompt - r ⟨s', heard'⟩ ⟨-, same⟩
    obtain rfl : heard' = heard ++ [⟨s, .converse prompt, r, s'⟩] := same
    have asked : Unsure policy username args authtok (heard ++ [⟨s, .converse prompt, r, s'⟩]) :=
      unsure.snoc id trivial
    constructor
    · exact fun code honest => asked.tested (honest (candid_hear candid))
    · rintro input pin rfl made r' ⟨s'', heard''⟩ ⟨-, same'⟩
      obtain rfl : heard'' = heard ++ [⟨s, .converse prompt, .ok (.text input), s'⟩] ++
        [⟨s', .pinutilTest username (pin.str ++ ['\n']), r', s''⟩] := same'
      exact asked.test (.typed (List.mem_append_right _ (List.mem_singleton_self _)) made)

theorem authenticate_tested {r : Except PamReturnCode PamReturnCode} (spoken : Spoken R)
    (candid : Candid R)
    (run : (Pam.authenticateUser policy username args uidOf authtok).run.Runs R s events r s') :
    Tested policy username args authtok events (returnCode r) := by
  have heard : Tested policy username args authtok (events.foldl hear []) (returnCode r) := by
    refine run.recounted hear (C := fun _ => True) (Q :=
      fun r x => Tested policy username args authtok x.2 (returnCode r)) ?_
    have start : Unsure policy username args authtok ([] : List (Event PamCmd S)) := ⟨by simp, by simp⟩
    have status : ∀ r s', Unsure policy username args authtok
        ([⟨s, .pinutilStatus username, r, s'⟩] : List (Event PamCmd S)) :=
      fun r s' => start.snoc id trivial
    apply wpx_authenticateUser (spoken_hear spoken)
    · exact fun _ => start.tested (by simp [returnCode])
    · rintro - r ⟨s', heard⟩ ⟨-, same⟩ - code other
      obtain rfl : heard = [⟨s, .pinutilStatus username, r, s'⟩] := same
      exact (status r s').tested other
    · rintro - r ⟨s', heard⟩ ⟨-, same⟩ used limit -
      obtain rfl : heard = [⟨s, .pinutilStatus username, r, s'⟩] := same
      apply wpx_firstPhase (spoken_hear spoken)
      · exact fun _ => (status r s').tested (by simp [returnCode])
      · rintro pin decision r' ⟨s'', heard'⟩ ⟨-, same'⟩
        obtain rfl : heard' = [⟨s, .pinutilStatus username, r, s'⟩] ++
          [⟨s', .pinutilTest username (pin.str ++ ['\n']), r', s''⟩] := same'
        have from_ := @decideFirstPass_cases policy args authtok
        rw [decision] at from_
        obtain ⟨wants, token, cached, made⟩ := from_
        have origin : Origin policy args authtok [⟨s, .pinutilStatus username, r, s'⟩]
            (pin.str ++ ['\n']) := .token wants cached made
        have tested := @Unsure.test _ _ _ _ _ _ _ s' s'' r' (status r s') origin
        constructor
        · exact fun _ => tested
        · intro _ invalid
          -- a test that was not the last one did not go well
          have silent : ¬ ReportsOk r' := by
            rw [← testCode_success, invalid]
            simp [testCode, PinutilTestOutcome.code]
          exact tested_second spoken candid
            ((status r s').snoc silent ⟨rfl, origin.mono (List.subset_append_left _ _)⟩)
      · exact fun _ => tested_second spoken candid (status r s')
  have within : events.foldl hear [] ⊆ events := by
    intro event member
    rcases mem_hear member with none | there
    · cases none
    · exact there
  constructor
  · rw [heard.reported]
    constructor
    · exact fun ⟨event, member, ok⟩ => ⟨event, within member, ok⟩
    · rintro ⟨⟨x, op, r', y⟩, member, ok⟩
      cases op with
      | pinutilTest name text => exact ⟨_, mem_hear_test member, ok⟩
      | _ => exact ok.elim
  · rintro ⟨x, op, r', y⟩ member
    cases op with
    | pinutilTest name text => exact (heard.sent _ (mem_hear_test member)).mono within
    | _ => trivial

/-! ### The prompt -/

/-- There is one prompt at most, and none under `use_first_pass`. -/
theorem Ledger.Course.asked_length {l : Ledger} (course : Ledger.Course policy args authtok l code) :
    l.asked.length ≤ 1 ∧ (args.useFirstPass = true → l.asked = []) := by
  have prompted :
      ∀ {used used' : UInt32} {first}, Ledger.Enters policy args authtok used first used' →
      args.useFirstPass = false := by
    intro used used' first enters
    cases enters with
    | prompted decision =>
      have from_ := @decideFirstPass_cases policy args authtok
      rw [decision] at from_
      exact from_.1
    | rejected _ _ use => exact use
  cases course with
  | asked enters => exact ⟨by simp, by simp [prompted enters]⟩
  | tested enters => exact ⟨by simp, by simp [prompted enters]⟩
  | _ => exact ⟨by simp [Ledger.empty], fun _ => rfl⟩

theorem spoken_helped : Spoken (Pam.helped uidOf) := fun _ _ _ _ _ act => act.1

theorem candid_helped : Candid (Pam.helped uidOf) :=
  ⟨fun _ _ _ _ act => act.2 rfl, fun _ _ _ act => act.2 rfl⟩

/-- Every session is sound. -/
theorem authenticate_sound {arguments : List Str} {records records' : List Record}
    {events : List (Event PamCmd (List Record))} {r : Except PamReturnCode PamReturnCode}
    (run : (Pam.authenticateUser policy username (.fromStrs arguments) uidOf authtok).run.Runs
      (Pam.helped uidOf) records events r
      records') : Sound policy username arguments uidOf authtok events (returnCode r) := by
  have tested := authenticate_tested spoken_helped candid_helped run
  obtain ⟨single, silent⟩ := (authenticate_course spoken_helped run).asked_length
  refine ⟨tested.reported, fun success => ?_, single, fun uses => silent (fromStrs_use.2 uses)⟩
  obtain ⟨⟨x, op, r', y⟩, member, ok⟩ := tested.reported.1 success
  cases op with
  | pinutilTest name text =>
    obtain ⟨rfl, origin⟩ := tested.sent _ member
    obtain ⟨record, same, runs⟩ := run.acts _ member
    dsimp only at same
    subst same
    exact ⟨x, text, r', record, member, ok, origin, runs.confirms ok⟩
  | _ => exact ok.elim

end Session

/-! ## Samples -/

/-- A TPM that fails no command, with its record. -/
def recorder : Handler NvCmd (Tpm × Record) := fun c x =>
  ((Tpm.exec c x.1).1, (Tpm.exec c x.1).2, x.2 ++ [⟨x.1, c, (Tpm.exec c x.1).1, (Tpm.exec c x.1).2⟩])

theorem recorder_within : Within recorder Prod.snd Observed := fun c x => ⟨x.1, _, .done c x.1, rfl⟩

theorem Stdin.handler_fed (ops : KeyOps) : Within (Stdin.handler ops) id Stdin.fed := by
  intro c s
  cases c with
  | readLine =>
    obtain ⟨input, console⟩ := s
    cases input with
    | nil => rfl
    | cons first rest => cases first <;> rfl
  | masterKey op => exact ⟨rfl, rfl⟩
  | _ => rfl

/-- A run of the helper that is neither failed nor killed. -/
def recordedRun (command : Commands) (text : Str) (t : Tpm) :
    Except Stop Unit × (Tpm × Record) × Stdin :=
  (Util.main sampleEnv command).run.run (recorder.sum (Stdin.handler idleKeys)) ((t, []),
    .piped text ⟨none, none, none⟩)

def recordedOutput (command : Commands) (text : Str) (t : Tpm) : Except Str Output :=
  .ok ⟨exitStatus (recordedRun command text t).1,
    (recordedRun command text t).2.2.console.printed.head?⟩

theorem recordedRun_runs {command : Commands} {text : Str} {t : Tpm} :
    HelperRuns sampleEnv.uidOf command text (recordedOutput command text t)
      (recordedRun command text t).2.1.2 :=
  .answered rfl rfl (Prog.ends_run (recorder_within.sum (Stdin.handler_fed idleKeys))
    (Util.main sampleEnv command).run
    (((t, []), .piped text ⟨none, none, none⟩) : (Tpm × Record) × Stdin)) (.inr rfl)

/-- A session with this helper, and a user who answers every prompt with `4242`. -/
def servedSession : Handler PamCmd (Tpm × List Record)
  | .sendMessage .., x => (.ok (), x)
  | .converse _, x => (.ok (.text "4242".toList), x)
  | .pinutilStatus username, x =>
    let run := recordedRun (.status (some username)) [] x.1
    (recordedOutput (.status (some username)) [] x.1, run.2.1.1, x.2 ++ [run.2.1.2])
  | .pinutilTest username text, x =>
    let run := recordedRun (.test (some username)) text x.1
    (recordedOutput (.test (some username)) text x.1, run.2.1.1, x.2 ++ [run.2.1.2])

theorem servedSession_within : Within servedSession Prod.snd (Pam.helped sampleEnv.uidOf) := by
  intro c x
  cases c with
  | sendMessage style text => exact ⟨rfl, by simp [servedSession]⟩
  | converse prompt => exact ⟨rfl, by simp [servedSession]⟩
  | pinutilStatus username => exact ⟨_, rfl, recordedRun_runs⟩
  | pinutilTest username text => exact ⟨_, rfl, recordedRun_runs⟩

/-- The events of an authentication in this session. -/
def servedEvents (t : Tpm) : List (Event PamCmd (List Record)) :=
  ((Pam.authenticateUser .default "alice".toList (.fromStrs []) sampleEnv.uidOf none).run.trace
    servedSession (t, [])).map
    fun event => ⟨event.before.2, event.op, event.answer, event.after.2⟩

/-- The last attempt, with the right PIN. -/
theorem authenticate_sound_once :
    Sound .default "alice".toList [] sampleEnv.uidOf none
      (servedEvents (Tpm.empty.put serves_thousand lastAccount)) .success := by
  have run := Prog.runs_run servedSession_within
    (Pam.authenticateUser .default "alice".toList (.fromStrs []) sampleEnv.uidOf none).run
    (Tpm.empty.put serves_thousand lastAccount, [])
  have sound := authenticate_sound run
  have success : returnCode (Prog.run servedSession
      (Pam.authenticateUser .default "alice".toList (.fromStrs []) sampleEnv.uidOf none).run
      (Tpm.empty.put serves_thousand lastAccount, [])).1 = .success := by decide +kernel
  rw [success] at sound
  exact sound

end Pinpam
