import Mathlib.Logic.Relation
import Pinpam.Core.Operations

/-!
# Legacy PINs

A slot without a version tag holds the PIN its user chose without its leading zeros.
The first verification that succeeds settles how the slot is read from then on, and
it does so for the spelling that was typed: the chosen PIN stays good as long as a
spelling that is accepted on the legacy slot is stored as the chosen one.
-/

namespace Pinpam
set_option autoImplicit false
open Pinpam.Effect Pinpam.Effect.Fallible

section Legacy

variable {uid : UInt32} {serves : Serves uid} {t t' : Tpm} {p q : Pin} {m : PinManager}

/-! ## Digits -/

theorem mem_normalizeLegacyPin {s : Str} {c : Char} (member : c ∈ normalizeLegacyPin s) :
    c ∈ s ∨ c = '0' := by
  unfold normalizeLegacyPin at member
  by_cases zeros : s.dropWhile (· == '0') = []
  · simp only [zeros, if_true, List.mem_singleton] at member
    exact .inr member
  · simp only [zeros, if_false] at member
    exact .inl ((List.dropWhile_sublist _).subset member)

/-- A string of digits. -/
def Digits (s : Str) : Prop := ∀ c ∈ s, c.isDigit = true

instance (s : Str) : Decidable (Digits s) :=
  decidable_of_iff (s.all Char.isDigit = true) List.all_eq_true

theorem Digits.nul_free {s : Str} (digits : Digits s) : '\x00' ∉ s := by
  intro nul
  have digit := digits _ nul
  revert digit
  decide

theorem Digits.normalized {s : Str} (digits : Digits s) : Digits (normalizeLegacyPin s) := by
  intro c member
  obtain member | rfl := mem_normalizeLegacyPin member
  · exact digits c member
  · decide

theorem Digits.ofBytes {s : Str} (digits : Digits s) : (Auth.ofBytes (asBytes s)).bytes = asBytes s :=
  stripZeros_of_not_mem (zero_not_mem_asBytes digits.nul_free)

/-! ## Runs -/

/-- The slot of the user, where there is one, is not locked. -/
def Tpm.Unlocked (t : Tpm) (serves : Serves uid) : Prop :=
  ∀ a c tag, t.Shows serves ⟨.written a c, tag⟩ → ¬ c.locked

/-- A verification, allowed by `may`, that does not leave the slot locked. -/
inductive VerifyStep (serves : Serves uid) (may : PinManager → Pin → Tpm → Prop) :
    Tpm → Tpm → Prop where
  | verify {t : Tpm} (m : PinManager) (q : Pin) (allowed : may m q t)
      (unlocked : (exec Tpm.exec (m.verifyPin uid q) t).2.Unlocked serves) :
      VerifyStep serves may t (exec Tpm.exec (m.verifyPin uid q) t).2

/-- `q`, where a legacy slot of `p` accepts it, is stored as `p` is: it has the value
of `p`, and either needs no new slot or gets one. -/
def StoredAs (serves : Serves uid) (p : Pin) (m : PinManager) (q : Pin) (t : Tpm) : Prop :=
  ∀ acc, t.Shows serves acc → acc.tag.read = none → q.legacyAuth = p.legacyAuth →
    (asBytes (normalizeLegacyPin q.str)).length ≤ authMaxSize →
      q.auth = p.auth ∧ (normalizeLegacyPin q.str = q.str ∨
        Account.refusal (asBytes q.str) .absent = none ∧ m.policy.maxAttempts.toNat < 2 ^ 31)

/-- The slot is open and holds `p`, by the old rule or by the current one. -/
structure Account.Keeps (p : Pin) (acc : Account) (a : Auth) (c : PinCounters) : Prop where
  opens : acc.slot.Opens a c
  fits : a.bytes.length ≤ authValueMax
  read : (acc.tag.read = none ∧ a = p.legacyAuth) ∨
    (acc.tag.read = some PIN_VERSION_CURRENT ∧ a = p.auth)

/-- The chosen PIN is accepted, by either rule. -/
theorem Account.Keeps.accepts {acc : Account} {a : Auth} {c : PinCounters} (digits : Digits p.str)
    (keeps : acc.Keeps p a c) : acc.Accepts p c := by
  obtain ⟨opens, fits, ⟨legacy, rfl⟩ | ⟨current, rfl⟩⟩ := keeps
  · refine .legacy legacy opens ?_
    rw [Pin.legacyAuth, digits.normalized.ofBytes] at fits
    exact fits.trans (by decide)
  · refine .current current opens ?_
    rw [Pin.auth, digits.ofBytes] at fits
    exact fits.trans (by decide)

theorem Account.Keeps.step {acc : Account} {a : Auth} {c : PinCounters}
    (keeps : acc.Keeps p a c)
    (stored : acc.tag.read = none → q.legacyAuth = p.legacyAuth →
      (asBytes (normalizeLegacyPin q.str)).length ≤ authMaxSize → q.auth = p.auth ∧
        (normalizeLegacyPin q.str = q.str ∨
          Account.refusal (asBytes q.str) .absent = none ∧ m.policy.maxAttempts.toNat < 2 ^ 31))
    (unlocked : ∀ a c, (acc.verifyPin uid q m.policy.maxAttempts).2.slot = .written a c → ¬ c.locked) :
    ∃ a c, (acc.verifyPin uid q m.policy.maxAttempts).2.Keeps p a c := by
  obtain ⟨opens, fits, ⟨legacy, rfl⟩ | ⟨current, rfl⟩⟩ := keeps
  · by_cases accepted :
      q.legacyAuth = p.legacyAuth ∧ (asBytes (normalizeLegacyPin q.str)).length ≤ authMaxSize
    · obtain ⟨same, short⟩ := accepted
      obtain ⟨value, how⟩ := stored legacy same short
      rw [← same] at opens fits
      rw [verifyPin_legacy legacy opens short] at unlocked ⊢
      by_cases canonical : normalizeLegacyPin q.str = q.str
      · have spelled := Pin.legacyAuth_canonical canonical
        rw [Account.migrateLegacyPinFormat, if_pos canonical] at unlocked ⊢
        exact ⟨q.legacyAuth, c.after true, opens.again, fits, .inr ⟨rfl, spelled.trans value⟩⟩
      · obtain ⟨fresh, low⟩ := how.resolve_left canonical
        have present : SlotState.written q.legacyAuth (c.after true) ≠ .absent := by simp
        have migrated := @migrate_respelled uid m.policy.maxAttempts
          { acc with slot := .written q.legacyAuth (c.after true) } q canonical present
        rw [migrated, setupPin_stored rfl fresh] at unlocked ⊢
        exact ⟨q.auth, _, ⟨rfl, unlocked _ _ rfl, low⟩, (refusal_eq_none.1 fresh).2.2,
          .inr ⟨rfl, value⟩⟩
    · have fails :
          ∀ data, (acc.verifyPinExact uid (asBytes (normalizeLegacyPin q.str))).1 ≠
          .ok (.success data) := by
        intro data success
        obtain ⟨short, _, slot, -⟩ := exact_success success
        rw [opens.written] at slot
        exact accepted ⟨(SlotState.written.inj slot).1.symm, short⟩
      obtain ⟨c', result, same⟩ :=
        @exact_written uid acc _ _ opens.written (asBytes (normalizeLegacyPin q.str))
      rw [verifyPin_legacy_fails legacy fails, result] at unlocked ⊢
      exact ⟨p.legacyAuth, c', ⟨rfl, unlocked _ _ rfl, same ▸ opens.low⟩, fits, .inl ⟨legacy, rfl⟩⟩
  · obtain ⟨c', result, same⟩ := @exact_written uid acc _ _ opens.written (asBytes q.str)
    rw [verifyPin_current current, result] at unlocked ⊢
    exact ⟨p.auth, c', ⟨rfl, unlocked _ _ rfl, same ▸ opens.low⟩, fits, .inr ⟨current, rfl⟩⟩

theorem VerifyStep.keeps (step : VerifyStep serves (StoredAs serves p) t t')
    (held : ∃ acc a c, t.Shows serves acc ∧ acc.Keeps p a c) :
    ∃ acc a c, t'.Shows serves acc ∧ acc.Keeps p a c := by
  obtain ⟨acc, a, c, shows_, keeps⟩ := held
  obtain ⟨m, q, stored, unlocked⟩ := step
  have result : (exec Tpm.exec (m.verifyPin uid q) t).2 =
      t.put serves (acc.verifyPin uid q m.policy.maxAttempts).2 := by
    conv_lhs => rw [← shows_.eq_put]
    rw [exec_verifyPin]
  rw [result] at unlocked ⊢
  have open_ : ∀ a c, (acc.verifyPin uid q m.policy.maxAttempts).2.slot = .written a c →
      ¬ c.locked := by
    intro a c slot
    refine unlocked a c (acc.verifyPin uid q m.policy.maxAttempts).2.tag ?_
    rw [← slot]
    exact Tpm.put_shows
  obtain ⟨a', c', keeps'⟩ := keeps.step (stored acc shows_) open_
  exact ⟨_, a', c', Tpm.put_shows, keeps'⟩

/-- After any run of verifications in which each accepted spelling is stored as the
chosen PIN, the chosen PIN verifies. -/
theorem legacy_pin_verifies_after_run {c : PinCounters} {tag : TagState} (digits : Digits p.str)
    (start : t.Shows serves ⟨.written p.legacyAuth c, tag⟩) (legacy : tag.read = none)
    (fits : p.legacyAuth.bytes.length ≤ authValueMax) (unlocked : ¬ c.locked)
    (low : c.pinLimit.toNat < 2 ^ 31)
    (run : Relation.ReflTransGen (VerifyStep serves (StoredAs serves p)) t t') (m : PinManager) :
    ∃ data, (exec Tpm.exec (m.verifyPin uid p) t').1 = .ok (.success data) := by
  have held : ∃ acc a c, t'.Shows serves acc ∧ acc.Keeps p a c := by
    induction run with
    | refl => exact ⟨_, _, _, start, ⟨rfl, unlocked, low⟩, fits, .inl ⟨legacy, rfl⟩⟩
    | tail _ step ih => exact step.keeps ih
  obtain ⟨acc, a, c, shows_, keeps⟩ := held
  refine ⟨(c.after true).data, ?_⟩
  rw [← shows_.eq_put, exec_verifyPin]
  exact (keeps.accepts digits).success

/-! ### Another spelling -/

/-- Without the condition on the spellings the chosen PIN is lost: one verification
with another spelling leaves a slot that refuses it. -/
theorem legacy_pin_lost_to_spelling : ¬ ∀ (uid : UInt32) (serves : Serves uid) (t t' : Tpm)
    (p : Pin) (c : PinCounters) (tag : TagState),
    Digits p.str → t.Shows serves ⟨.written p.legacyAuth c, tag⟩ →
      tag.read = none → p.legacyAuth.bytes.length ≤ authValueMax → ¬ c.locked →
      c.pinLimit.toNat < 2 ^ 31 →
      Relation.ReflTransGen (VerifyStep serves fun _ _ _ => True) t t' →
      ∀ m : PinManager, ∃ data, (exec Tpm.exec (m.verifyPin uid p) t').1 = .ok (.success data) := by
  intro claim
  have serves : Serves 1000 := by decide
  let acc : Account := ⟨.written chosenPin.legacyAuth ⟨0, 3⟩, .absent⟩
  have moved : acc.verifyPin 1000 paddedPin 3 =
      (.ok (.success ⟨0, 3⟩), ⟨.written paddedPin.auth ⟨0, 3⟩, .version 2⟩) := by decide +kernel
  have refused : (Account.verifyPin 1000 chosenPin 3 ⟨.written paddedPin.auth ⟨0, 3⟩, .version 2⟩).1 =
      .ok (.invalid false) := by decide +kernel
  have result : (exec Tpm.exec (defaultManager.verifyPin 1000 paddedPin) (Tpm.empty.put serves acc)).2 =
      Tpm.empty.put serves ⟨.written paddedPin.auth ⟨0, 3⟩, .version 2⟩ := by
    rw [exec_verifyPin,
      show acc.verifyPin 1000 paddedPin defaultManager.policy.maxAttempts = _ from moved]
  have step : VerifyStep serves (fun _ _ _ => True) (Tpm.empty.put serves acc) _ :=
    .verify defaultManager paddedPin trivial (by
      intro a c tag shows_
      rw [result] at shows_
      cases shows_.unique Tpm.put_shows
      decide)
  obtain ⟨data, success⟩ := claim 1000 serves _ _ chosenPin ⟨0, 3⟩ .absent (by decide) Tpm.put_shows rfl
    (by decide +kernel) (by decide) (by decide) (.single step) defaultManager
  rw [result, exec_verifyPin,
    show (Account.verifyPin 1000 chosenPin defaultManager.policy.maxAttempts _).1 = _ from refused]
    at success
  cases success

/-- A slot that was provisioned by an old version. -/
def agedAccount (count : UInt32) : Account := ⟨.written chosenPin.legacyAuth ⟨count, 3⟩, .absent⟩

def agedTpm : Tpm := Tpm.empty.put serves_thousand (agedAccount 0)

/-- The TPM after a miss. -/
def missedTpm : Tpm := (exec Tpm.exec (defaultManager.verifyPin 1000 plainPin) agedTpm).2

/-- The chosen PIN is good after a miss, and after itself. -/
theorem legacy_pin_verifies_after_itself : ∃ data,
    (exec Tpm.exec (defaultManager.verifyPin 1000 chosenPin)
      (exec Tpm.exec (defaultManager.verifyPin 1000 chosenPin) missedTpm).2).1 =
      .ok (.success data) := by
  have missed : (agedAccount 0).verifyPin 1000 plainPin defaultManager.policy.maxAttempts =
      (.ok (.invalid false), agedAccount 1) := by decide +kernel
  have moved : (agedAccount 1).verifyPin 1000 chosenPin defaultManager.policy.maxAttempts =
      (.ok (.success ⟨0, 3⟩), ⟨.written chosenPin.auth ⟨0, 3⟩, .version PIN_VERSION_CURRENT⟩) := by
    decide +kernel
  have another : plainPin.legacyAuth ≠ chosenPin.legacyAuth := by decide +kernel
  have left : missedTpm = Tpm.empty.put serves_thousand (agedAccount 1) := by
    rw [missedTpm, agedTpm, exec_verifyPin, missed]
  have first : VerifyStep serves_thousand (StoredAs serves_thousand chosenPin) agedTpm missedTpm := by
    refine .verify defaultManager plainPin (fun acc shows_ _ same => absurd same another) ?_
    change missedTpm.Unlocked serves_thousand
    rw [left]
    intro a c tag shows_
    cases shows_.unique Tpm.put_shows
    decide
  have second : VerifyStep serves_thousand (StoredAs serves_thousand chosenPin) missedTpm
      (exec Tpm.exec (defaultManager.verifyPin 1000 chosenPin) missedTpm).2 := by
    refine .verify defaultManager chosenPin (fun acc shows_ legacy same short => ?_) ?_
    · exact ⟨rfl, .inr ⟨by decide +kernel, by decide⟩⟩
    rw [left, exec_verifyPin, moved]
    intro a c tag shows_
    cases shows_.unique Tpm.put_shows
    decide
  exact legacy_pin_verifies_after_run (by decide) Tpm.put_shows rfl (by decide +kernel) (by decide)
    (by decide) (.tail (.single first) second) defaultManager

end Legacy

end Pinpam
