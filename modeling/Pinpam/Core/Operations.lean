import Pinpam.Core.Rules

/-!
# The operations of the manager

Setting up, migrating, verifying and deleting with a PIN: the accounts each passes
through, its rule, and the refinement of the operations on an account by the
programs.
-/

namespace Pinpam
set_option autoImplicit false
open Pinpam.Effect Pinpam.Effect.Fallible

/-- A specification that leaves one outcome when no command fails. -/
theorem exec_eq {ε α : Type} {x : Fallible NvCmd ε α} {r : Except ε α} {t t' : Tpm}
    (spec : wpx (Faulty Tpm.exec fun _ => False) (fun _ => True) x
      (fun r' t'' => (r', t'') = (r, t')) t) :
    exec Tpm.exec x t = (r, t') :=
  exec_of_wpx spec

section Operations

variable {P C : Tpm → Prop} {t : Tpm} {uid : UInt32} {serves : Serves uid} {acc : Account}

/-! ## Setting up -/

variable {m : PinManager} {pin : Pin}

theorem wpx_definePinSlot {bytes : Bytes} {Q : Except PinError Unit → Tpm → Prop}
    (crash : C (t.put serves acc))
    (crash' : Account.refusal bytes acc.slot = none →
      C (t.put serves { acc with slot := .unwritten (.ofBytes bytes) }) ∧
      C (t.put serves { acc with slot := .written (.ofBytes bytes) ⟨0, m.policy.maxAttempts⟩ }))
    (refused : ∀ err, Account.refusal bytes acc.slot = some err →
      Q (.error (.ofTss err)) (t.put serves acc))
    (done : Account.refusal bytes acc.slot = none →
      Q (.ok ()) (t.put serves
        { acc with slot := .written (.ofBytes bytes) ⟨0, m.policy.maxAttempts⟩ }))
    (failed : P (t.put serves acc) → ∀ f : Fault, Q (.error (.ofTss f.error)) (t.put serves acc))
    (failed' : Account.refusal bytes acc.slot = none →
      P (t.put serves { acc with slot := .unwritten (.ofBytes bytes) }) →
      ∀ f : Fault, Q (.error (.ofTss f.error))
        (t.put serves { acc with slot := .unwritten (.ofBytes bytes) })) :
    wpx (Faulty Tpm.exec P) C (m.definePinSlot (slotHandle uid serves) bytes) Q (t.put serves acc) := by
  have fault : P (t.put serves acc) → ∀ f : Fault, C (t.put serves acc) ∧
      Q (.error (.ofTss f.error)) (t.put serves acc) :=
    fun may f => ⟨crash, failed may f⟩
  unfold PinManager.definePinSlot
  by_cases long : authMaxSize < bytes.length
  · rw [Auth.tryFrom, if_neg (Nat.not_le.2 long)]
    refine wpx_bind.2 (wpx_ofTss ⟨crash, crash, refused _ ?_⟩)
    exact if_pos long
  rw [Auth.tryFrom, if_pos (Nat.not_lt.1 long)]
  refine wpx_bind.2 (wpx_ofTss ⟨crash, ?_⟩)
  refine wpx_bind.2 (wpx_ofTss ?_)
  refine wpx_bind.2 (wpx_tpm rfl crash crash ?_ fun may f => ⟨crash, fault may f⟩)
  refine wpx_bind.2 (wpx_tpm rfl crash crash ?_ fun may f => ⟨crash, fault may f⟩)
  refine wpx_bind.2 (wpx_tpm rfl crash crash ?_ fun may f => ⟨crash, fault may f⟩)
  refine wpx_bind.2 (wpx_tpm rfl crash crash ?_ fun may f => ⟨crash, fault may f⟩)
  refine wpx_bind.2 (wpx_tpm rfl crash crash ⟨crash, ?_⟩ fun may f => ⟨crash, fault may f⟩)
  refine wpx_bind.2 (wpx_ofTss (wpx_session crash fault ?_))
  by_cases present : acc.slot ≠ .absent
  · refine wpx_tpm (exec_nvDefineSpace_slot_present present) crash crash ?_ fun may f =>
      ⟨fault may f, fault⟩
    refine ⟨⟨crash, refused _ ?_⟩, fault⟩
    rw [Account.refusal, if_neg long, if_pos present]
  have absent := not_not.1 present
  by_cases large : authValueMax < (Auth.ofBytes bytes).bytes.length
  · refine wpx_tpm (exec_nvDefineSpace_slot_size absent large) crash crash ?_ fun may f =>
      ⟨fault may f, fault⟩
    refine ⟨⟨crash, refused _ ?_⟩, fault⟩
    rw [Account.refusal, if_neg long, if_neg present, if_pos large]
  have fresh := refusal_eq_none.2 ⟨Nat.not_lt.1 long, absent, Nat.not_lt.1 large⟩
  obtain ⟨half, stored⟩ := crash' fresh
  have fault' := fun may f => And.intro half (failed' fresh may f)
  refine wpx_tpm (exec_nvDefineSpace_slot absent (Nat.not_lt.1 large)) crash half ⟨?_, fault'⟩
    fun may f => ⟨fault may f, fault⟩
  refine wpx_ofTss ?_
  refine wpx_bind.2 (wpx_tpm rfl half half ?_ fault')
  refine wpx_bind.2 (wpx_tpm rfl half half ?_ fault')
  refine wpx_bind.2 (wpx_tpm rfl half half ?_ fault')
  refine wpx_bind.2 (wpx_tpm exec_nvReadPublic_slot half half ?_ fault')
  exact wpx_tpm (exec_nvWrite_slot m.policy.maxAttempts rfl) half stored (done fresh) (failed' fresh)

/-- The accounts a setup passes through. -/
inductive Account.SetsUp (pin : Pin) (limit : UInt32) (acc : Account) : Account → Prop where
  | start : SetsUp pin limit acc acc
  | defined (fresh : refusal (asBytes pin.str) acc.slot = none) :
      SetsUp pin limit acc ⟨.unwritten pin.auth, acc.tag⟩
  | stored (fresh : refusal (asBytes pin.str) acc.slot = none) {tag : TagState}
      (becomes : acc.tag.Becomes PIN_VERSION_CURRENT tag) :
      SetsUp pin limit acc ⟨.written pin.auth ⟨0, limit⟩, tag⟩
  | rolledBack (fresh : refusal (asBytes pin.str) acc.slot = none) {tag : TagState}
      (gone : acc.tag.Becomes PIN_VERSION_CURRENT tag ∨ tag = .absent) :
      SetsUp pin limit acc ⟨.absent, tag⟩

/-- Where a failure in `b` leaves an account: there, or with the new slot rolled back. -/
def Account.StopsAt (pin : Pin) (a b : Account) : Prop :=
  b = a ∨ a.slot = .absent ∧ ∃ c, b.slot = .written pin.auth c

/-- A setup that throws was stopped by a failure where it is left or, when the slot
is rolled back, on the way. -/
theorem wpx_setupPin {Q : Except PinError Unit → Tpm → Prop}
    (crash : ∀ a, acc.SetsUp pin m.policy.maxAttempts a → C (t.put serves a))
    (done : Q (acc.setupPin uid pin m.policy.maxAttempts).1
      (t.put serves (acc.setupPin uid pin m.policy.maxAttempts).2))
    (failed : ∀ a b, acc.SetsUp pin m.policy.maxAttempts a → acc.SetsUp pin m.policy.maxAttempts b →
      a.StopsAt pin b → P (t.put serves b) → ∀ e, Q (.error e) (t.put serves a)) :
    wpx (Faulty Tpm.exec P) C (m.setupPin uid pin) Q (t.put serves acc) := by
  have start := crash _ .start
  have fault := fun may (f : Fault) =>
      And.intro start (failed _ _ .start .start (.inl rfl) may (.ofTss f.error))
  unfold PinManager.setupPin
  rw [nvIndexForUid_eq serves]
  refine wpx_bind.2 ⟨start, wpx_bind.2 (wpx_readPinSlotOwner start ?_ fault)⟩
  dsimp only
  by_cases written : acc.slot.data.isSome
  · rw [if_pos written]
    rw [Account.setupPin, if_pos written] at done
    exact ⟨start, done⟩
  rw [if_neg written]
  simp only [Account.setupPin, if_neg written] at done
  refine wpx_bind.2 (wpx_definePinSlot start ?_ ?_ ?_ fault ?_)
  · exact fun fresh => ⟨crash _ (.defined fresh), crash _ (.stored fresh .same)⟩
  · intro err refused
    rw [refused] at done
    exact ⟨start, done⟩
  · intro fresh
    rw [fresh] at done
    have stored : ∀ tag, acc.tag.Becomes PIN_VERSION_CURRENT tag →
        C (t.put serves ⟨.written pin.auth ⟨0, m.policy.maxAttempts⟩, tag⟩) :=
          fun _ becomes => crash _ (.stored fresh becomes)
    have left : ∀ tag, acc.tag.Becomes PIN_VERSION_CURRENT tag →
        P (t.put serves ⟨.written pin.auth ⟨0, m.policy.maxAttempts⟩, tag⟩) → ∀ e,
          C (t.put serves ⟨.written pin.auth ⟨0, m.policy.maxAttempts⟩, tag⟩) ∧
            Q (.error e) (t.put serves ⟨.written pin.auth ⟨0, m.policy.maxAttempts⟩, tag⟩) :=
      fun tag becomes may e =>
        ⟨stored tag becomes,
          failed _ _ (.stored fresh becomes) (.stored fresh becomes) (.inl rfl) may e⟩
    refine wpx_bind.2
      (wpx_ofTss (wpx_tpm rfl (stored _ .same) (stored _ .same) ?_ fun may f => left _ .same may _))
    refine wpx_bind.2
      (wpx_attempt.2 (wpx_writePinVersionTag stored ⟨stored _ .written, done⟩
        fun tag becomes may err => ?_))
    -- the rollback, from the state in which the tag failed
    have gone : ∀ tag', tag' = tag ∨ tag' = .absent → C (t.put serves ⟨.absent, tag'⟩) ∧
        ∀ e, Q (.error e) (t.put serves ⟨.absent, tag'⟩) := by
      intro tag' was
      have rolled : acc.SetsUp pin m.policy.maxAttempts ⟨.absent, tag'⟩ := by
        obtain rfl | rfl := was
        · exact .rolledBack fresh (.inl becomes)
        · exact .rolledBack fresh (.inr rfl)
      exact ⟨crash _ rolled, failed _ _ rolled (.stored fresh becomes) (.inr ⟨rfl, _, rfl⟩) may⟩
    refine wpx_bind.2
      (wpx_ofTss (wpx_tpm rfl (stored _ becomes) (stored _ becomes) ?_ fun may f =>
        left _ becomes may _))
    refine wpx_bind.2 (wpx_attempt.2 (wpx_deletePinAdmin (stored _ becomes) ?_ (by simp) ?_ ?_ ?_ ?_))
    · exact fun _ tag' was => (gone tag' was).1
    · exact fun _ => ⟨(gone _ (.inr rfl)).1, (gone _ (.inr rfl)).2 _⟩
    · exact fun _ _ => ⟨(gone _ (.inl rfl)).1, (gone _ (.inl rfl)).2 _⟩
    · exact fun may f => left _ becomes may _
    · exact fun _ _ f => ⟨(gone _ (.inl rfl)).1, (gone _ (.inl rfl)).2 _⟩
  · exact fun fresh may f =>
      ⟨crash _ (.defined fresh), failed _ _ (.defined fresh) (.defined fresh) (.inl rfl) may _⟩

/-! ## Verifying -/

/-- The accounts a migration passes through. -/
inductive Account.Migrates (pin : Pin) (limit : UInt32) (acc : Account) : Account → Prop where
  | start : Migrates pin limit acc acc
  | tagged (canonical : normalizeLegacyPin pin.str = pin.str) {tag : TagState}
      (becomes : acc.tag.Becomes PIN_VERSION_CURRENT tag) : Migrates pin limit acc { acc with tag }
  | replaced (spelled : normalizeLegacyPin pin.str ≠ pin.str) (present : acc.slot ≠ .absent)
      {tag : TagState} (was : tag = acc.tag ∨ tag = .absent) {a : Account}
      (sets : SetsUp pin limit ⟨.absent, tag⟩ a) :
      Migrates pin limit acc a

/-- A migration that throws was stopped by a failure where it is left or on the way
to the absent slot it is left with, unless the TPM refuses the new slot. -/
theorem wpx_migrateLegacyPinFormat {Q : Except PinError Unit → Tpm → Prop}
    (crash : ∀ a, acc.Migrates pin m.policy.maxAttempts a → C (t.put serves a))
    (done : Q (acc.migrateLegacyPinFormat uid pin m.policy.maxAttempts).1
      (t.put serves (acc.migrateLegacyPinFormat uid pin m.policy.maxAttempts).2))
    (failed : ∀ a b, acc.Migrates pin m.policy.maxAttempts a → acc.Migrates pin m.policy.maxAttempts b →
      a.StopsAt pin b → P (t.put serves b) → ∀ e, Q (.error e) (t.put serves a)) :
    wpx (Faulty Tpm.exec P) C (m.migrateLegacyPinFormat uid pin) Q (t.put serves acc) := by
  have start := crash _ .start
  have fault := fun may (f : Fault) =>
      And.intro start (failed _ _ .start .start (.inl rfl) may (.ofTss f.error))
  unfold PinManager.migrateLegacyPinFormat
  by_cases canonical : normalizeLegacyPin pin.str = pin.str
  · rw [if_pos canonical]
    rw [Account.migrateLegacyPinFormat, if_pos canonical] at done
    refine wpx_writePinVersionTag (fun tag becomes => crash _ (.tagged canonical becomes)) done ?_
    exact fun tag becomes may e =>
      failed _ _ (.tagged canonical becomes) (.tagged canonical becomes) (.inl rfl) may e
  rw [if_neg canonical]
  simp only [Account.migrateLegacyPinFormat, if_neg canonical, Account.deletePinAdmin] at done
  by_cases absent : acc.slot = .absent
  · rw [if_pos absent] at done
    refine wpx_bind.2 (wpx_deletePinAdmin start ?_ (fun _ => ⟨start, done⟩) ?_ ?_ fault ?_)
    all_goals exact fun present => absurd absent present
  rw [if_neg absent] at done
  have visits : ∀ {tag a}, tag = acc.tag ∨ tag = .absent →
      Account.SetsUp pin m.policy.maxAttempts ⟨.absent, tag⟩ a →
      acc.Migrates pin m.policy.maxAttempts a :=
    fun was sets => .replaced canonical absent was sets
  have left : ∀ {tag}, tag = acc.tag ∨ tag = .absent → P (t.put serves ⟨.absent, tag⟩) → ∀ e,
      C (t.put serves ⟨.absent, tag⟩) ∧ Q (.error e) (t.put serves ⟨.absent, tag⟩) :=
    fun was may e =>
      ⟨crash _ (visits was .start), failed _ _ (visits was .start) (visits was .start) (.inl rfl) may e⟩
  -- the new setup, from an account whose tag may have stayed where its deletion failed
  have again : ∀ tag, tag = acc.tag ∨ tag = .absent →
      (tag ≠ .absent → P (t.put serves ⟨.absent, tag⟩)) →
      wpx (Faulty Tpm.exec P) C (do m.restartContext; m.setupPin uid pin; m.restartContext) Q
        (t.put serves ⟨.absent, tag⟩) := by
    intro tag was may
    have here := crash _ (visits was .start)
    refine wpx_bind.2 (wpx_ofTss (wpx_tpm rfl here here ?_ fun may f => left was may _))
    refine wpx_bind.2 (wpx_setupPin (fun a sets => crash _ (visits was sets)) ?_ ?_)
    · simp only [Account.setupPin, SlotState.data, Option.isSome_none,
        Bool.false_eq_true, if_false] at done ⊢
      cases refused : Account.refusal (asBytes pin.str) .absent with
      | some err =>
        rw [refused] at done
        by_cases gone : tag = .absent
        · subst gone
          exact ⟨here, done⟩
        · exact left was (may gone) _
      | none =>
        rw [refused] at done
        have stored := visits was (.stored refused .written)
        refine wpx_ofTss (wpx_tpm rfl (crash _ stored) (crash _ stored) done fun may f => ?_)
        exact failed _ _ stored stored (.inl rfl) may _
    · intro a b sets sets' how may e
      exact ⟨crash _ (visits was sets), failed _ _ (visits was sets) (visits was sets') how may e⟩
  refine wpx_bind.2 (wpx_deletePinAdmin start ?_ (fun gone => absurd gone absent) ?_ ?_ fault ?_)
  · exact fun _ tag was => crash _ (visits was .start)
  · exact fun _ => again _ (.inr rfl) fun present => absurd rfl present
  · exact fun _ may => again _ (.inl rfl) fun _ => may
  · exact fun _ may f => left (.inl rfl) may _

/-- The accounts a verification passes through. -/
inductive Account.Verifies (uid : UInt32) (pin : Pin) (limit : UInt32) (acc : Account) :
    Account → Prop where
  | start : Verifies uid pin limit acc acc
  | compared (current : acc.tag.read = some PIN_VERSION_CURRENT) :
      Verifies uid pin limit acc { acc with slot := acc.slot.compared pin.auth }
  | comparedLegacy (legacy : acc.tag.read = none) :
      Verifies uid pin limit acc { acc with slot := acc.slot.compared pin.legacyAuth }
  | migrates (legacy : acc.tag.read = none) {slot : PinData}
      (hit : (acc.verifyPinExact uid (asBytes (normalizeLegacyPin pin.str))).1 = .ok (.success slot))
      {a : Account}
      (migrates : Migrates pin limit { acc with slot := acc.slot.compared pin.legacyAuth } a) :
      Verifies uid pin limit acc a

theorem setsUp_result :
    acc.SetsUp pin m.policy.maxAttempts (acc.setupPin uid pin m.policy.maxAttempts).2 := by
  unfold Account.setupPin
  by_cases written : acc.slot.data.isSome
  · rw [if_pos written]
    exact .start
  rw [if_neg written]
  cases fresh : Account.refusal (asBytes pin.str) acc.slot with
  | some err => exact .start
  | none => exact .stored fresh .written

theorem migrates_result :
    acc.Migrates pin m.policy.maxAttempts
      (acc.migrateLegacyPinFormat uid pin m.policy.maxAttempts).2 := by
  unfold Account.migrateLegacyPinFormat
  by_cases canonical : normalizeLegacyPin pin.str = pin.str
  · rw [if_pos canonical]
    exact .tagged canonical .written
  rw [if_neg canonical]
  by_cases absent : acc.slot = .absent
  · rw [Account.deletePinAdmin, if_pos absent]
    exact .start
  · rw [Account.deletePinAdmin, if_neg absent]
    exact .replaced canonical absent (.inr rfl) setsUp_result

/-- A migration that fails is swallowed: the verification still succeeds. -/
theorem wpx_verifyPin {Q : Except PinError VerificationResult → Tpm → Prop}
    (crash : ∀ a, acc.Verifies uid pin m.policy.maxAttempts a → C (t.put serves a))
    (done : Q (acc.verifyPin uid pin m.policy.maxAttempts).1
      (t.put serves (acc.verifyPin uid pin m.policy.maxAttempts).2))
    (failed : ∀ a b, acc.Verifies uid pin m.policy.maxAttempts a →
      acc.Verifies uid pin m.policy.maxAttempts b →
      a.StopsAt pin b → P (t.put serves b) → ∀ e, Q (.error e) (t.put serves a))
    (swallowed : ∀ slot a b, acc.tag.read = none →
      (acc.verifyPinExact uid (asBytes (normalizeLegacyPin pin.str))).1 = .ok (.success slot) →
      Account.Migrates pin m.policy.maxAttempts { acc with slot := acc.slot.compared pin.legacyAuth }
        a →
      Account.Migrates pin m.policy.maxAttempts { acc with slot := acc.slot.compared pin.legacyAuth }
        b →
      a.StopsAt pin b → P (t.put serves b) → Q (.ok (.success slot)) (t.put serves a))
    (unread : (acc.verifyPin uid pin m.policy.maxAttempts).1 = .ok (.invalid true) →
      P (t.put serves (acc.verifyPin uid pin m.policy.maxAttempts).2) →
      Q (.ok (.invalid false)) (t.put serves (acc.verifyPin uid pin m.policy.maxAttempts).2)) :
    wpx (Faulty Tpm.exec P) C (m.verifyPin uid pin) Q (t.put serves acc) := by
  have start := crash _ .start
  have fault := fun may (f : Fault) =>
      And.intro start (failed _ _ .start .start (.inl rfl) may (.ofTss f.error))
  unfold PinManager.verifyPin
  refine wpx_bind.2 (wpx_readPinVersionTag start ?_ fault)
  dsimp only
  cases tagged : acc.tag.read with
  | some version =>
    simp only [Account.verifyPin, tagged] at done unread ⊢
    by_cases current : version = PIN_VERSION_CURRENT
    · subst current
      simp only [ne_eq, not_true, if_false] at done unread ⊢
      refine wpx_verifyPinExact start (crash _ (.compared tagged)) done ?_ unread
      rintro _ (rfl | rfl) may f
      · exact (fault may f).2
      · exact failed _ _ (.compared tagged) (.compared tagged) (.inl rfl) may _
    · simp only [ne_eq, current, not_false_eq_true, if_true] at done ⊢
      exact ⟨start, done⟩
  | none =>
    have compared := crash _ (.comparedLegacy tagged)
    have ends : ∀ {r acc'}, acc.verifyPinExact uid (asBytes (normalizeLegacyPin pin.str)) = (r, acc') →
        C (t.put serves acc') := by
      intro r acc' eq
      obtain rfl : (acc.verifyPinExact uid (asBytes (normalizeLegacyPin pin.str))).2 = acc' :=
        congrArg Prod.snd eq
      obtain same | moved := @verifyPinExact_visits uid acc (asBytes (normalizeLegacyPin pin.str))
      · rw [same]
        exact start
      · rw [moved]
        exact compared
    simp only [Account.verifyPin, tagged] at done unread ⊢
    refine wpx_bind.2 (wpx_verifyPinExact start compared ?_ ?_ ?_)
    · cases eq : acc.verifyPinExact uid (asBytes (normalizeLegacyPin pin.str)) with
      | mk r acc' =>
        rw [eq] at done
        cases r with
        | error err => exact ⟨ends eq, done⟩
        | ok v =>
          cases v with
          | invalid locked => exact ⟨ends eq, done⟩
          | lockedOut => exact ⟨ends eq, done⟩
          | success slot =>
            have hit := congrArg Prod.fst eq
            obtain rfl : { acc with slot := acc.slot.compared pin.legacyAuth } = acc' := by
              exact (verifyPinExact_snd hit).symm.trans (congrArg Prod.snd eq)
            have visits : ∀ a, Account.Migrates pin m.policy.maxAttempts
                { acc with slot := acc.slot.compared pin.legacyAuth } a →
                acc.Verifies uid pin m.policy.maxAttempts a :=
                  fun a migrates => .migrates tagged hit migrates
            have late : ∀ a, Account.Migrates pin m.policy.maxAttempts
                { acc with slot := acc.slot.compared pin.legacyAuth } a →
                Q (.ok (.success slot)) (t.put serves a) →
                wpx (Faulty Tpm.exec P) C (do m.restartContext; pure (.success slot)) Q
                  (t.put serves a) := by
              intro a migrates ok
              refine wpx_bind.2
                (wpx_ofTss (wpx_tpm rfl (crash _ (visits a migrates))
                  (crash _ (visits a migrates)) ?_ ?_))
              · exact ⟨crash _ (visits a migrates), ok⟩
              · exact fun may f =>
                  ⟨crash _ (visits a migrates),
                    failed _ _ (visits a migrates) (visits a migrates) (.inl rfl) may _⟩
            refine wpx_bind.2 (wpx_ofTss (wpx_tpm rfl compared compared ?_ fun may f => ?_))
            · refine wpx_bind.2
                (wpx_attempt.2
                  (wpx_migrateLegacyPinFormat (fun a migrates => crash _ (visits a migrates)) ?_ ?_))
              · exact late _ migrates_result done
              · intro a b migrates migrates' how may e
                exact late a migrates (swallowed slot a b tagged hit migrates migrates' how may)
            · exact ⟨compared,
                failed _ _ (.comparedLegacy tagged) (.comparedLegacy tagged) (.inl rfl) may _⟩
    · rintro _ (rfl | rfl) may f
      · exact fault may f
      · exact ⟨compared, failed _ _ (.comparedLegacy tagged) (.comparedLegacy tagged) (.inl rfl) may _⟩
    · intro invalid may
      cases eq : acc.verifyPinExact uid (asBytes (normalizeLegacyPin pin.str)) with
      | mk r acc' =>
        rw [eq] at unread invalid may
        obtain rfl := invalid
        exact ⟨ends eq, unread rfl may⟩

theorem verifies_result :
    acc.Verifies uid pin m.policy.maxAttempts (acc.verifyPin uid pin m.policy.maxAttempts).2 := by
  unfold Account.verifyPin
  cases tagged : acc.tag.read with
  | some version =>
    dsimp only
    by_cases current : version = PIN_VERSION_CURRENT
    · subst current
      rw [if_neg (fun ne => ne rfl)]
      obtain same | moved := @verifyPinExact_visits uid acc (asBytes pin.str)
      · rw [same]
        exact .start
      · rw [moved]
        exact .compared tagged
    · rw [if_pos current]
      exact .start
  | none =>
    have visits := @verifyPinExact_visits uid acc (asBytes (normalizeLegacyPin pin.str))
    dsimp only
    cases eq : acc.verifyPinExact uid (asBytes (normalizeLegacyPin pin.str)) with
    | mk r a =>
      have ends : acc.Verifies uid pin m.policy.maxAttempts a := by
        rw [eq] at visits
        obtain rfl | rfl := visits
        · exact .start
        · exact .comparedLegacy tagged
      match r, eq with
      | .error _, _ => exact ends
      | .ok (.invalid _), _ => exact ends
      | .ok .lockedOut, _ => exact ends
      | .ok (.success slot), eq =>
        have hit := congrArg Prod.fst eq
        obtain rfl : { acc with slot := acc.slot.compared pin.legacyAuth } = a :=
          (verifyPinExact_snd hit).symm.trans (congrArg Prod.snd eq)
        exact .migrates tagged hit migrates_result

/-! ## Deleting with a PIN -/

/-- The accounts an authenticated deletion passes through. -/
inductive Account.Deletes (uid : UInt32) (pin : Pin) (limit : UInt32) (acc : Account) :
    Account → Prop where
  | verifies {a : Account} (verifies : Verifies uid pin limit acc a) : Deletes uid pin limit acc a
  | deleted {a : Account} (verifies : Verifies uid pin limit acc a) {tag : TagState}
      (was : tag = a.tag ∨ tag = .absent) :
      Deletes uid pin limit acc ⟨.absent, tag⟩

theorem wpx_deletePinWithAuth {Q : Except PinError DeleteResult → Tpm → Prop}
    (crash : ∀ a, acc.Deletes uid pin m.policy.maxAttempts a → C (t.put serves a))
    (done : Q (acc.deletePinWithAuth uid pin m.policy.maxAttempts).1
      (t.put serves (acc.deletePinWithAuth uid pin m.policy.maxAttempts).2))
    (failed : ∀ a b, acc.Deletes uid pin m.policy.maxAttempts a →
      acc.Deletes uid pin m.policy.maxAttempts b →
      a.StopsAt pin b → P (t.put serves b) → ∀ e, Q (.error e) (t.put serves a))
    (deleted : ∀ a b, acc.Deletes uid pin m.policy.maxAttempts a →
      acc.Deletes uid pin m.policy.maxAttempts b →
      a.slot = .absent → P (t.put serves b) → Q (.ok .success) (t.put serves a))
    (unread : (acc.deletePinWithAuth uid pin m.policy.maxAttempts).1 = .ok (.invalid true) →
      P (t.put serves (acc.deletePinWithAuth uid pin m.policy.maxAttempts).2) →
      Q (.ok (.invalid false)) (t.put serves (acc.deletePinWithAuth uid pin m.policy.maxAttempts).2)) :
    wpx (Faulty Tpm.exec P) C (m.deletePinWithAuth uid pin) Q (t.put serves acc) := by
  unfold PinManager.deletePinWithAuth
  have visits : ∀ a, acc.Verifies uid pin m.policy.maxAttempts a → C (t.put serves a) :=
    fun a v => crash _ (.verifies v)
  -- the deletion, from wherever the verification succeeded
  have delete : ∀ a, acc.Verifies uid pin m.policy.maxAttempts a →
      (a.slot = .absent → Q (.error (.notProvisioned uid)) (t.put serves a)) →
      (a.slot ≠ .absent → Q (.ok .success) (t.put serves ⟨.absent, .absent⟩)) →
      wpx (Faulty Tpm.exec P) C (do deletePinAdmin uid; pure .success) Q (t.put serves a) := by
    intro a v missing gone
    have rest : ∀ tag, tag = a.tag ∨ tag = .absent → C (t.put serves ⟨.absent, tag⟩) :=
      fun tag was => crash _ (.deleted v was)
    refine wpx_bind.2 (wpx_deletePinAdmin (visits a v) (fun _ => rest) ?_ ?_ ?_ ?_ ?_)
    · exact fun absent => ⟨visits a v, missing absent⟩
    · exact fun present => ⟨rest _ (.inr rfl), gone present⟩
    · exact fun _ may =>
        ⟨rest _ (.inl rfl), deleted _ _ (.deleted v (.inl rfl)) (.deleted v (.inl rfl)) rfl may⟩
    · exact fun may f => ⟨visits a v, failed _ _ (.verifies v) (.verifies v) (.inl rfl) may _⟩
    · exact fun _ may f =>
        ⟨rest _ (.inl rfl), failed _ _ (.deleted v (.inl rfl)) (.deleted v (.inl rfl)) (.inl rfl) may _⟩
  refine wpx_bind.2 (wpx_verifyPin visits ?_ ?_ ?_ ?_)
  · have v := @verifies_result uid acc m pin
    cases eq : acc.verifyPin uid pin m.policy.maxAttempts with
    | mk r a =>
      rw [eq] at v
      unfold Account.deletePinWithAuth at done
      rw [eq] at done
      match r with
      | .error err => exact ⟨visits _ v, done⟩
      | .ok (.invalid locked) => exact ⟨visits _ v, done⟩
      | .ok .lockedOut => exact ⟨visits _ v, done⟩
      | .ok (.success slot) =>
        refine delete a v (fun absent => ?_) (fun present => ?_)
        · simpa only [Account.deletePinAdmin, absent, if_true, Except.map] using done
        · simpa only [Account.deletePinAdmin, present, if_false, Except.map] using done
  · intro a b v v' how may e
    exact ⟨visits a v, failed _ _ (.verifies v) (.verifies v') how may e⟩
  · intro slot a b legacy hit migrates migrates' how may
    have v : acc.Verifies uid pin m.policy.maxAttempts a := .migrates legacy hit migrates
    have v' : acc.Verifies uid pin m.policy.maxAttempts b := .migrates legacy hit migrates'
    refine delete a v (fun absent => ?_) fun present => ?_
    · exact failed _ _ (.verifies v) (.verifies v') how may _
    · exact deleted _ _ (.deleted v (.inr rfl)) (.verifies v') rfl may
  · intro invalid may
    have v := @verifies_result uid acc m pin
    unfold Account.deletePinWithAuth at unread
    cases eq : acc.verifyPin uid pin m.policy.maxAttempts with
    | mk r a =>
      rw [eq] at v invalid may unread
      obtain rfl := invalid
      exact ⟨visits _ v, unread rfl may⟩

/-! ## Refinement

On a TPM that fails no command each program is the operation on the account. -/

theorem exec_setupPin : exec Tpm.exec (m.setupPin uid pin) (t.put serves acc) =
    ((acc.setupPin uid pin m.policy.maxAttempts).1,
      t.put serves (acc.setupPin uid pin m.policy.maxAttempts).2) :=
  exec_eq (wpx_setupPin (fun _ _ => trivial) rfl fun _ _ _ _ _ no => False.elim no)

theorem exec_deletePinAdmin : exec Tpm.exec (deletePinAdmin uid) (t.put serves acc) =
    ((acc.deletePinAdmin uid).1, t.put serves (acc.deletePinAdmin uid).2) := by
  refine exec_eq (wpx_deletePinAdmin trivial (fun _ _ _ => trivial) (fun absent => ?_)
    (fun present => ?_)
    (fun _ no => False.elim no) (fun no => False.elim no) (fun _ no => False.elim no))
  · rw [Account.deletePinAdmin, if_pos absent]
  · rw [Account.deletePinAdmin, if_neg present]

theorem exec_verifyPin : exec Tpm.exec (m.verifyPin uid pin) (t.put serves acc) =
    ((acc.verifyPin uid pin m.policy.maxAttempts).1,
      t.put serves (acc.verifyPin uid pin m.policy.maxAttempts).2) :=
  exec_eq (wpx_verifyPin (fun _ _ => trivial) rfl (fun _ _ _ _ _ no => False.elim no)
    (fun _ _ _ _ _ _ _ _ no => False.elim no) fun _ no => False.elim no)

theorem exec_deletePinWithAuth : exec Tpm.exec (m.deletePinWithAuth uid pin) (t.put serves acc) =
    ((acc.deletePinWithAuth uid pin m.policy.maxAttempts).1,
      t.put serves (acc.deletePinWithAuth uid pin m.policy.maxAttempts).2) :=
  exec_eq (wpx_deletePinWithAuth (fun _ _ => trivial) rfl (fun _ _ _ _ _ no => False.elim no)
    (fun _ _ _ _ _ no => False.elim no) fun _ no => False.elim no)

theorem wpx_getPinSlot {Q : Except PinError (Option PinData) → Tpm → Prop}
    (crash : C (t.put serves acc)) (done : Q (.ok acc.slot.data) (t.put serves acc))
    (failed : P (t.put serves acc) → ∀ f : Fault, Q (.error (.ofTss f.error)) (t.put serves acc)) :
    wpx (Faulty Tpm.exec P) C (getPinSlot uid) Q (t.put serves acc) := by
  unfold getPinSlot
  rw [nvIndexForUid_eq serves]
  exact wpx_bind.2 ⟨crash, wpx_readPinSlotOwner crash done failed⟩

theorem exec_getPinSlot :
    exec Tpm.exec (getPinSlot uid) (t.put serves acc) = (.ok acc.slot.data, t.put serves acc) :=
  exec_eq (wpx_getPinSlot trivial rfl fun no => False.elim no)

/-! ## Uids without an index -/

section Overflow

variable (past : ¬ Serves uid)
include past

theorem setupPin_overflow : m.setupPin uid pin = throw (.uidOverflow uid) := by
  unfold PinManager.setupPin
  rw [nvIndexForUid_overflow past]
  rfl

theorem deletePinAdmin_overflow : deletePinAdmin uid = throw (.uidOverflow uid) := by
  unfold deletePinAdmin
  rw [nvIndexForUid_overflow past]
  rfl

theorem verifyPin_overflow : m.verifyPin uid pin = throw (.uidOverflow uid) := by
  unfold PinManager.verifyPin readPinVersionTag
  rw [versionNvIndexForUid_overflow past]
  rfl

theorem deletePinWithAuth_overflow : m.deletePinWithAuth uid pin = throw (.uidOverflow uid) := by
  unfold PinManager.deletePinWithAuth
  rw [verifyPin_overflow past]
  rfl

theorem getPinSlot_overflow : getPinSlot uid = throw (.uidOverflow uid) := by
  unfold getPinSlot
  rw [nvIndexForUid_overflow past]
  rfl

end Overflow

end Operations

end Pinpam
