import Pinpam.Core.Account

/-!
# The operations on an account

What each operation of the manager does to an account on a TPM that fails no
command, and when a verification succeeds.
-/

namespace Pinpam
set_option autoImplicit false

/-- What an owner read of the slot gives. -/
def SlotState.data : SlotState → Option PinData
  | .written _ pin => some pin.data
  | _ => none

/-- What an owner read of the tag gives. -/
def TagState.read : TagState → Option UInt8
  | .version v => some v
  | _ => none

/-- The TPM's rule: the `authValue` is refused from here on. -/
def PinCounters.locked (p : PinCounters) : Prop := p.pinLimit ≤ p.pinCount

instance (p : PinCounters) : Decidable p.locked := inferInstanceAs (Decidable (p.pinLimit ≤ p.pinCount))

/-- The signed test of the manager is the TPM's while the sign bits are free. -/
theorem PinCounters.atLimit_data {p : PinCounters} (count : p.pinCount.toNat < 2 ^ 31)
    (limit : p.pinLimit.toNat < 2 ^ 31) : p.data.atLimit = decide p.locked := by
  unfold PinData.atLimit PinCounters.locked
  refine decide_eq_decide.2 ?_
  show p.pinLimit.toInt32 ≤ p.pinCount.toInt32 ↔ _
  rw [Int32.le_iff_toInt_le, toInt_toInt32 count, toInt_toInt32 limit, UInt32.le_iff_toNat_le]
  exact Int.ofNat_le

/-- The counters after a comparison. -/
def PinCounters.after (p : PinCounters) (hit : Bool) : PinCounters :=
  { p with pinCount := if hit then 0 else p.pinCount + 1 }

/-- The slot after `a` was presented as its `authValue`. -/
def SlotState.compared (a : Auth) : SlotState → SlotState
  | .written b p => if p.locked then .written b p else .written b (p.after (a = b))
  | s => s

/-- `verify_pin_exact`, as a function of the slot. -/
def SlotState.verdict (uid : UInt32) (a : Auth) : SlotState → PinResult VerificationResult
  | .absent => .error (.ofTss (.tss2 (some .handle)))
  | .unwritten _ => .error (.notProvisioned uid)
  | .written b p =>
    if p.locked then .error (.ofTss (.tss2 (some .authUnavailable)))
    else if a = b then .ok (if (p.after true).data.atLimit then .lockedOut
      else .success (p.after true).data)
    else .ok (.invalid (p.after false).data.atLimit)

section Verdict

variable {uid : UInt32} {a b : Auth} {c : PinCounters}

theorem PinCounters.limit_pos (unlocked : ¬ c.locked) : 0 < c.pinLimit.toNat := by
  have := UInt32.lt_iff_toNat_lt.1 (UInt32.not_le.1 unlocked)
  omega

/-- A match is reported as a lock only where the limit has the sign bit. -/
theorem atLimit_after_hit (unlocked : ¬ c.locked) :
    (c.after true).data.atLimit = decide (2 ^ 31 ≤ c.pinLimit.toNat) := by
  have zero : (c.after true).pinCount = 0 := rfl
  have same : (c.after true).pinLimit = c.pinLimit := rfl
  by_cases limit : c.pinLimit.toNat < 2 ^ 31
  · rw [@PinCounters.atLimit_data (c.after true) (by rw [zero]; decide) (by rw [same]; exact limit)]
    have positive := PinCounters.limit_pos unlocked
    rw [decide_eq_false (by omega : ¬ 2 ^ 31 ≤ c.pinLimit.toNat)]
    refine decide_eq_false fun locked => ?_
    have := UInt32.le_iff_toNat_le.1 locked
    rw [zero, same] at this
    simp only [UInt32.toNat_zero] at this
    omega
  · rw [decide_eq_true (by omega : 2 ^ 31 ≤ c.pinLimit.toNat)]
    refine decide_eq_true (Int32.le_iff_toInt_le.2 ?_)
    show c.pinLimit.toBitVec.toInt ≤ 0
    have negative := BitVec.toInt_eq_toNat_cond c.pinLimit.toBitVec
    have bound := c.pinLimit.toNat_lt
    have value : c.pinLimit.toBitVec.toNat = c.pinLimit.toNat := rfl
    rw [value, if_neg (by omega)] at negative
    omega

@[simp] theorem compared_hit (unlocked : ¬ c.locked) :
    SlotState.compared a (.written a c) = .written a (c.after true) := by
  simp only [SlotState.compared, if_neg unlocked, decide_true]

@[simp] theorem compared_miss (unlocked : ¬ c.locked) (miss : b ≠ a) :
    SlotState.compared b (.written a c) = .written a (c.after false) := by
  simp only [SlotState.compared, if_neg unlocked, miss, decide_false]

@[simp] theorem compared_locked (locked : c.locked) :
    SlotState.compared b (.written a c) = .written a c :=
  if_pos locked

theorem verdict_hit (unlocked : ¬ c.locked) (limit : c.pinLimit.toNat < 2 ^ 31) :
    (SlotState.written a c).verdict uid a = .ok (.success (c.after true).data) := by
  have low : (c.after true).data.atLimit = false := by
    rw [atLimit_after_hit unlocked]
    exact decide_eq_false (by omega)
  simp only [SlotState.verdict, if_neg unlocked, if_true, low, Bool.false_eq_true, if_false]

theorem verdict_miss (unlocked : ¬ c.locked) (miss : b ≠ a) :
    (SlotState.written a c).verdict uid b = .ok (.invalid (c.after false).data.atLimit) := by
  simp only [SlotState.verdict, if_neg unlocked, if_neg miss]

/-- Only the value of an unlocked slot succeeds. -/
theorem verdict_success {slot : SlotState} {data : PinData}
    (success : slot.verdict uid b = .ok (.success data)) :
    ∃ c, slot = .written b c ∧ ¬ c.locked ∧ c.pinLimit.toNat < 2 ^ 31 ∧ data = (c.after true).data := by
  cases slot with
  | absent => cases success
  | unwritten a => cases success
  | written a c =>
    unfold SlotState.verdict at success
    dsimp only at success
    by_cases locked : c.locked
    · rw [if_pos locked] at success
      cases success
    rw [if_neg locked] at success
    by_cases hit : b = a
    · subst hit
      rw [if_pos rfl] at success
      by_cases high : (c.after true).data.atLimit
      · rw [if_pos high] at success
        cases success
      · rw [if_neg high] at success
        rw [atLimit_after_hit locked] at high
        cases success
        refine ⟨c, rfl, locked, ?_, rfl⟩
        simpa using high
    · rw [if_neg hit] at success
      cases success

end Verdict

namespace Account

def verifyPinExact (uid : UInt32) (bytes : Bytes) (acc : Account) :
    PinResult VerificationResult × Account :=
  if acc.slot ≠ .absent ∧ authMaxSize < bytes.length then
    (.error (.ofTss (.wrapper .wrongParamSize)), acc)
  else (acc.slot.verdict uid (.ofBytes bytes), { acc with slot := acc.slot.compared (.ofBytes bytes) })

/-- Why the TPM does not take `bytes` as the `authValue` of a new slot. -/
def refusal (bytes : Bytes) : SlotState → Option TssError
  | s =>
    if authMaxSize < bytes.length then some (.wrapper .wrongParamSize)
    else if s ≠ .absent then some (.tss2 (some .nvDefined))
    else if authValueMax < (Auth.ofBytes bytes).bytes.length then some (.tss2 (some .size))
    else none

def setupPin (uid : UInt32) (pin : Pin) (limit : UInt32) (acc : Account) : PinResult Unit × Account :=
  if acc.slot.data.isSome then (.error (.alreadyProvisioned uid), acc)
  else
    match refusal (asBytes pin.str) acc.slot with
    | some err => (.error (.ofTss err), acc)
    | none => (.ok (), ⟨.written pin.auth ⟨0, limit⟩, .version PIN_VERSION_CURRENT⟩)

def deletePinAdmin (uid : UInt32) (acc : Account) : PinResult Unit × Account :=
  if acc.slot = .absent then (.error (.notProvisioned uid), acc) else (.ok (), ⟨.absent, .absent⟩)

def migrateLegacyPinFormat (uid : UInt32) (pin : Pin) (limit : UInt32) (acc : Account) :
    PinResult Unit × Account :=
  if normalizeLegacyPin pin.str = pin.str then
    (.ok (), { acc with tag := .version PIN_VERSION_CURRENT })
  else
    match acc.deletePinAdmin uid with
    | (.ok (), acc) => acc.setupPin uid pin limit
    | failed => failed

def verifyPin (uid : UInt32) (pin : Pin) (limit : UInt32) (acc : Account) :
    PinResult VerificationResult × Account :=
  match acc.tag.read with
  | some version =>
    if version ≠ PIN_VERSION_CURRENT then (.error (.tpmError (.unsupportedVersion version)), acc)
    else acc.verifyPinExact uid (asBytes pin.str)
  | none =>
    match acc.verifyPinExact uid (asBytes (normalizeLegacyPin pin.str)) with
    | (.ok (.success slot), acc) => (.ok (.success slot), (acc.migrateLegacyPinFormat uid pin limit).2)
    | other => other

def deletePinWithAuth (uid : UInt32) (pin : Pin) (limit : UInt32) (acc : Account) :
    PinResult DeleteResult × Account :=
  match acc.verifyPin uid pin limit with
  | (.ok (.success _), acc) =>
    ((acc.deletePinAdmin uid).1.map fun _ => .success, (acc.deletePinAdmin uid).2)
  | (.ok (.invalid locked), acc) => (.ok (.invalid locked), acc)
  | (.ok .lockedOut, acc) => (.ok .lockedOut, acc)
  | (.error err, acc) => (.error err, acc)

end Account

/-! ## Lemmas -/

section Lemmas

variable {uid limit : UInt32} {acc : Account} {pin : Pin}

theorem refusal_eq_none {bytes : Bytes} {slot : SlotState} : Account.refusal bytes slot = none ↔
    bytes.length ≤ authMaxSize ∧ slot = .absent ∧ (Auth.ofBytes bytes).bytes.length ≤ authValueMax := by
  unfold Account.refusal
  by_cases long : authMaxSize < bytes.length
  · simp [long, Nat.not_le.2 long]
  by_cases present : slot = .absent
  · by_cases large : authValueMax < (Auth.ofBytes bytes).bytes.length
    · simp [long, present, large, Nat.not_le.2 large]
    · simp [long, present, large, Nat.not_lt.1 long, Nat.not_lt.1 large]
  · simp [long, present]

/-- A setup stores the PIN exactly where the bytes and the slot allow it. -/
theorem setupPin_ok_iff (unset : acc.slot.data = none) :
    (acc.setupPin uid pin limit).1 = .ok () ↔ Account.refusal (asBytes pin.str) acc.slot = none := by
  simp only [Account.setupPin, unset, Option.isSome_none, Bool.false_eq_true, if_false]
  cases Account.refusal (asBytes pin.str) acc.slot <;> simp

theorem setupPin_stored (unset : acc.slot.data = none)
    (taken : Account.refusal (asBytes pin.str) acc.slot = none) :
    acc.setupPin uid pin limit =
    (.ok (), ⟨.written pin.auth ⟨0, limit⟩, .version PIN_VERSION_CURRENT⟩) := by
  simp only [Account.setupPin, unset, taken, Option.isSome_none, Bool.false_eq_true, if_false]

/-- A PIN that is spelled otherwise than on the legacy slot is set up anew. -/
theorem migrate_respelled (spelled : normalizeLegacyPin pin.str ≠ pin.str)
    (present : acc.slot ≠ .absent) :
    acc.migrateLegacyPinFormat uid pin limit =
    Account.setupPin uid pin limit ⟨.absent, .absent⟩ := by
  rw [Account.migrateLegacyPinFormat, if_neg spelled, Account.deletePinAdmin, if_neg present]

theorem verifyPinExact_visits {bytes : Bytes} : (acc.verifyPinExact uid bytes).2 = acc ∨
    (acc.verifyPinExact uid bytes).2 = { acc with slot := acc.slot.compared (.ofBytes bytes) } := by
  unfold Account.verifyPinExact
  by_cases long : acc.slot ≠ .absent ∧ authMaxSize < bytes.length
  · exact .inl (by rw [if_pos long])
  · exact .inr (by rw [if_neg long])

theorem verifyPinExact_snd {bytes : Bytes} {v : VerificationResult}
    (read : (acc.verifyPinExact uid bytes).1 = .ok v) :
    (acc.verifyPinExact uid bytes).2 = { acc with slot := acc.slot.compared (.ofBytes bytes) } := by
  unfold Account.verifyPinExact at read ⊢
  by_cases long : acc.slot ≠ .absent ∧ authMaxSize < bytes.length
  · rw [if_pos long] at read
    cases read
  · rw [if_neg long]

/-- A comparison changes nothing but the count. -/
theorem exact_written {a : Auth} {c : PinCounters} (slot : acc.slot = .written a c) (bytes : Bytes) :
    ∃ c', (acc.verifyPinExact uid bytes).2 = { acc with slot := .written a c' } ∧
    c'.pinLimit = c.pinLimit := by
  obtain same | moved := @verifyPinExact_visits uid acc bytes
  · refine ⟨c, same.trans ?_, rfl⟩
    rw [← slot]
  · rw [moved, slot]
    by_cases locked : c.locked
    · exact ⟨c, by rw [compared_locked locked], rfl⟩
    by_cases hit : Auth.ofBytes bytes = a
    · subst hit
      exact ⟨c.after true, by rw [compared_hit locked], rfl⟩
    · exact ⟨c.after false, by rw [compared_miss locked hit], rfl⟩

theorem exact_success {bytes : Bytes} {data : PinData}
    (success : (acc.verifyPinExact uid bytes).1 = .ok (.success data)) :
    bytes.length ≤ authMaxSize ∧ ∃ c, acc.slot = .written (.ofBytes bytes) c ∧ ¬ c.locked ∧
      c.pinLimit.toNat < 2 ^ 31 ∧ data = (c.after true).data := by
  unfold Account.verifyPinExact at success
  by_cases long : acc.slot ≠ .absent ∧ authMaxSize < bytes.length
  · rw [if_pos long] at success
    cases success
  · rw [if_neg long] at success
    obtain ⟨c, slot, rest⟩ := verdict_success success
    refine ⟨Nat.not_lt.1 fun above => long ⟨?_, above⟩, c, slot, rest⟩
    rw [slot]
    exact nofun

/-- Nothing is migrated where the legacy comparison does not succeed. -/
theorem verifyPin_legacy_fails (legacy : acc.tag.read = none)
    (fails : ∀ data, (acc.verifyPinExact uid (asBytes (normalizeLegacyPin pin.str))).1 ≠
      .ok (.success data)) :
    acc.verifyPin uid pin limit = acc.verifyPinExact uid (asBytes (normalizeLegacyPin pin.str)) := by
  simp only [Account.verifyPin, legacy]
  cases eq : acc.verifyPinExact uid (asBytes (normalizeLegacyPin pin.str)) with
  | mk r a =>
    rw [eq] at fails
    match r, fails with
    | .ok (.success data), fails => exact absurd rfl (fails data)
    | .error _, _ => rfl
    | .ok (.invalid _), _ => rfl
    | .ok .lockedOut, _ => rfl

end Lemmas

/-! ## Acceptance -/

/-- The slot holds `a`, is unlocked, and its limit has no sign bit. -/
structure SlotState.Opens (slot : SlotState) (a : Auth) (c : PinCounters) : Prop where
  written : slot = .written a c
  unlocked : ¬ c.locked
  low : c.pinLimit.toNat < 2 ^ 31

/-- The account accepts the PIN: as it is spelled where the tag is current, by the old
rule where there is none. -/
inductive Account.Accepts (pin : Pin) (acc : Account) (c : PinCounters) : Prop where
  | current (tag : acc.tag.read = some PIN_VERSION_CURRENT) (opens : acc.slot.Opens pin.auth c)
      (short : (asBytes pin.str).length ≤ authMaxSize)
  | legacy (tag : acc.tag.read = none) (opens : acc.slot.Opens pin.legacyAuth c)
      (short : (asBytes (normalizeLegacyPin pin.str)).length ≤ authMaxSize)

section Acceptance

variable {uid limit : UInt32} {acc : Account} {pin : Pin} {a : Auth} {c : PinCounters}

/-- A PIN that has just been set up opens its slot unless the limit has no room. -/
theorem fresh_opens_iff :
    (SlotState.written a ⟨0, limit⟩).Opens a ⟨0, limit⟩ ↔
    0 < limit.toNat ∧ limit.toNat < 2 ^ 31 := by
  have locked : PinCounters.locked ⟨0, limit⟩ ↔ limit.toNat = 0 := by
    unfold PinCounters.locked
    rw [UInt32.le_iff_toNat_le]
    simp
  constructor
  · intro opens
    exact ⟨Nat.pos_of_ne_zero fun zero => opens.unlocked (locked.2 zero), opens.low⟩
  · rintro ⟨positive, low⟩
    exact ⟨rfl, fun closed => absurd (locked.1 closed) (by omega), low⟩

theorem SlotState.Opens.again (opens : acc.slot.Opens a c) :
    (SlotState.written a (c.after true)).Opens a (c.after true) where
  written := rfl
  unlocked := fun locked => by
    have positive := PinCounters.limit_pos opens.unlocked
    have zero := UInt32.le_iff_toNat_le.1 locked
    have same : (c.after true).pinLimit.toNat = c.pinLimit.toNat := rfl
    have count : (c.after true).pinCount.toNat = 0 := rfl
    omega
  low := opens.low

theorem SlotState.Opens.exact {bytes : Bytes} (opens : acc.slot.Opens (.ofBytes bytes) c)
    (short : bytes.length ≤ authMaxSize) : acc.verifyPinExact uid bytes =
      (.ok (.success (c.after true).data),
        { acc with slot := .written (.ofBytes bytes) (c.after true) }) := by
  rw [Account.verifyPinExact, if_neg fun long => absurd short (Nat.not_le.2 long.2), opens.written]
  exact Prod.ext (@verdict_hit uid _ _ opens.unlocked opens.low)
    (congrArg (Account.mk · acc.tag) (compared_hit opens.unlocked))

theorem verifyPin_current (tag : acc.tag.read = some PIN_VERSION_CURRENT) :
    acc.verifyPin uid pin limit = acc.verifyPinExact uid (asBytes pin.str) := by
  simp only [Account.verifyPin, tag, ne_eq, not_true, if_false]

/-- What a spelling that is accepted on a legacy slot leaves. -/
theorem verifyPin_legacy (tag : acc.tag.read = none) (opens : acc.slot.Opens pin.legacyAuth c)
    (short : (asBytes (normalizeLegacyPin pin.str)).length ≤ authMaxSize) :
    acc.verifyPin uid pin limit = (.ok (.success (c.after true).data),
      (Account.migrateLegacyPinFormat uid pin limit
        { acc with slot := .written pin.legacyAuth (c.after true) }).2) := by
  have exact := @SlotState.Opens.exact uid acc c _ opens short
  simp only [Account.verifyPin, tag, exact]
  rfl

theorem Account.Accepts.success (accepts : acc.Accepts pin c) :
    (acc.verifyPin uid pin limit).1 = .ok (.success (c.after true).data) := by
  obtain ⟨tag, opens, short⟩ | ⟨tag, opens, short⟩ := accepts
  · rw [verifyPin_current tag, opens.exact short]
  · rw [verifyPin_legacy tag opens short]

/-- A verification succeeds exactly where the account accepts the PIN. -/
theorem verifyPin_success_iff {data : PinData} : (acc.verifyPin uid pin limit).1 = .ok (.success data) ↔
    ∃ c, acc.Accepts pin c ∧ data = (c.after true).data := by
  refine ⟨fun success => ?_, ?_⟩
  · cases tag : acc.tag.read with
    | some version =>
      by_cases current : version = PIN_VERSION_CURRENT
      · subst current
        rw [verifyPin_current tag] at success
        obtain ⟨short, c, slot, unlocked, low, same⟩ := exact_success success
        exact ⟨c, .current tag ⟨slot, unlocked, low⟩ short, same⟩
      · simp only [Account.verifyPin, tag, ne_eq, current, not_false_eq_true, if_true] at success
        cases success
    | none =>
      cases exact : (acc.verifyPinExact uid (asBytes (normalizeLegacyPin pin.str))).1 with
      | error err =>
        rw [verifyPin_legacy_fails tag (by rw [exact]; exact nofun), exact] at success
        cases success
      | ok v =>
        by_cases hit : ∃ data, v = .success data
        · obtain ⟨data', rfl⟩ := hit
          obtain ⟨short, c, slot, unlocked, low, -⟩ := exact_success exact
          rw [verifyPin_legacy tag ⟨slot, unlocked, low⟩ short] at success
          exact ⟨c, .legacy tag ⟨slot, unlocked, low⟩ short,
            (VerificationResult.success.inj (Except.ok.inj success)).symm⟩
        · have fails :
              ∀ data, (acc.verifyPinExact uid (asBytes (normalizeLegacyPin pin.str))).1 ≠
              .ok (.success data) := by
            rw [exact]
            exact fun data same => hit ⟨data, Except.ok.inj same⟩
          rw [verifyPin_legacy_fails tag fails] at success
          exact absurd success (fails data)
  · rintro ⟨c, accepts, rfl⟩
    exact accepts.success

end Acceptance

end Pinpam
