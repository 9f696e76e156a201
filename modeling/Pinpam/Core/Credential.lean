import Pinpam.Core.Deletion
import Pinpam.Effect.Gate

/-!
# Credentials

What the program keeps for a user, without indices and tags: a secret behind a gate that
counts the attempts at it. One of an older version takes every spelling of its number,
and is stored anew on the first match.
-/

namespace Pinpam
set_option autoImplicit false
open Pinpam.Effect

structure Credential where
  secret : Auth
  /-- of a version that stored numbers without their leading zeros -/
  old : Bool
  gate : Gate
  deriving DecidableEq

namespace Credential

variable (pin : Pin) (limit : UInt32) (e : Credential)

/-- A PIN that has just been set up. -/
def fresh : Credential := ⟨pin.auth, false, ⟨0, limit.toNat⟩⟩

/-- The PIN is compared as it is spelled, or as a number. -/
def opens : Bool := decide ((if e.old then pin.legacyAuth else pin.auth) = e.secret)

def shut : Prop := e.gate.limit ≤ e.gate.used

instance : Decidable e.shut := inferInstanceAs (Decidable (_ ≤ _))

/-- What a match leaves: an old one keeps its limit only where the PIN is spelled as it
was stored. -/
def renew : Credential :=
  if e.old ∧ normalizeLegacyPin pin.str ≠ pin.str then fresh pin limit
  else { e with old := false, gate := { e.gate with used := 0 } }

/-- One attempt at the gate. -/
def attempt : Entrance × Credential :=
  if e.opens pin ∧ ¬ e.shut then (.opened, e.renew pin limit)
  else ((Gate.enter [e.opens pin] e.gate).1, { e with gate := (Gate.enter [e.opens pin] e.gate).2 })

variable {pin limit e}

theorem attempt_opened (opens : e.opens pin = true) (open_ : ¬ e.shut) :
    e.attempt pin limit = (.opened, e.renew pin limit) :=
  if_pos ⟨opens, open_⟩

theorem attempt_missed (misses : e.opens pin = false) (open_ : ¬ e.shut) :
    e.attempt pin limit =
      (if e.gate.limit ≤ e.gate.used + 1 then .shut else .rejected,
        { e with gate := { e.gate with used := e.gate.used + 1 } }) := by
  have below : e.gate.used < e.gate.limit := Nat.not_le.1 open_
  have no : ¬ (e.opens pin = true ∧ ¬ e.shut) := by simp [misses]
  rw [attempt, if_neg no, misses, Gate.enter_miss below, Gate.enter]

/-- A match is one again. -/
theorem renew_opens (opens : e.opens pin = true) : (e.renew pin limit).opens pin = true := by
  unfold renew Credential.opens at *
  by_cases respelled : e.old ∧ normalizeLegacyPin pin.str ≠ pin.str
  · simp [respelled, fresh]
  · rw [if_neg respelled]
    cases old : e.old with
    | false => simpa [old] using opens
    | true =>
      have canonical : normalizeLegacyPin pin.str = pin.str := by simpa [old] using respelled
      simpa [old, Pin.legacyAuth_canonical canonical] using opens

theorem renew_open (positive : 0 < limit.toNat) (open_ : ¬ e.shut) : ¬ (e.renew pin limit).shut := by
  unfold renew shut at *
  split
  · simpa [fresh] using Nat.pos_iff_ne_zero.1 positive
  · dsimp only
    omega

end Credential

/-! ## The credential of an account -/

/-- The counters of a slot as a gate. -/
def PinCounters.gate (c : PinCounters) : Gate := ⟨c.pinCount.toNat, c.pinLimit.toNat⟩

def Account.credential (acc : Account) : Option Credential :=
  match acc.slot with
  | .written a c => some ⟨a, decide (acc.tag.read = none), c.gate⟩
  | _ => none

/-- No slot is half defined, there is a limit, and the count has not passed it. -/
structure Account.Regular (acc : Account) : Prop where
  sound : acc.Sound
  defined : ∀ a, acc.slot ≠ .unwritten a
  positive : ∀ a c, acc.slot = .written a c → 0 < c.pinLimit.toNat
  within : ∀ a c, acc.slot = .written a c → c.pinCount.toNat ≤ c.pinLimit.toNat

section Counters

variable {c : PinCounters}

theorem after_true_gate : (c.after true).gate = { c.gate with used := 0 } := rfl

theorem after_false_gate (unlocked : ¬ c.locked) :
    (c.after false).gate = { c.gate with used := c.gate.used + 1 } := by
  have below := UInt32.lt_iff_toNat_lt.1 (UInt32.not_le.1 unlocked)
  have bound := c.pinLimit.toNat_lt
  have next : (c.pinCount + 1).toNat = c.pinCount.toNat + 1 := by
    rw [UInt32.toNat_add, UInt32.toNat_one]
    omega
  simp only [PinCounters.gate, PinCounters.after, Bool.false_eq_true, if_false, next]

theorem gate_open : ¬ c.locked ↔ c.gate.used < c.gate.limit := by
  unfold PinCounters.locked PinCounters.gate
  rw [UInt32.le_iff_toNat_le]
  exact Nat.not_le

end Counters

section Accounts

variable {uid limit : UInt32} {acc : Account} {pin : Pin} {e : Credential} {a : Auth} {c : PinCounters}
  {tag : TagState}

theorem credential_written : Account.credential ⟨.written a c, tag⟩ =
    some ⟨a, decide (tag.read = none), c.gate⟩ := rfl

/-- The account behind a credential. -/
theorem credential_some (held : acc.credential = some e) : ∃ c,
    acc.slot = .written e.secret c ∧ c.gate = e.gate ∧ e.old = decide (acc.tag.read = none) := by
  obtain ⟨slot, tag⟩ := acc
  cases slot with
  | written a c =>
    obtain rfl := Option.some.inj held
    exact ⟨c, rfl, rfl, rfl⟩
  | _ => cases held

theorem Account.Regular.absent (regular : acc.Regular) (none_ : acc.credential = none) :
    acc.slot = .absent := by
  obtain ⟨slot, tag⟩ := acc
  cases slot with
  | absent => rfl
  | unwritten a => exact absurd rfl (regular.defined a)
  | written a c => cases none_

theorem regular_absent (known : tag.Known) : Account.Regular ⟨.absent, tag⟩ where
  sound := ⟨known, by intro a c no; cases no⟩
  defined := by intro a no; cases no
  positive := by intro a c no; cases no
  within := by intro a c no; cases no

theorem regular_written (known : tag.Known) (positive : 0 < c.pinLimit.toNat)
    (low : c.pinLimit.toNat < 2 ^ 31) (within : c.pinCount.toNat ≤ c.pinLimit.toNat) :
    Account.Regular ⟨.written a c, tag⟩ where
  sound := ⟨known, by rintro _ _ ⟨⟩; exact low⟩
  defined := by intro a no; cases no
  positive := by rintro _ _ ⟨⟩; exact positive
  within := by rintro _ _ ⟨⟩; exact within

theorem current_known : TagState.Known (.version PIN_VERSION_CURRENT) := .inr rfl

/-- What a setup leaves. -/
theorem regular_fresh (positive : 0 < limit.toNat) (low : limit.toNat < 2 ^ 31) :
    Account.Regular ⟨.written pin.auth ⟨0, limit⟩, .version PIN_VERSION_CURRENT⟩ :=
  regular_written current_known positive low (Nat.zero_le _)

/-- The credential compares as the account does. -/
theorem opens_iff (held : acc.credential = some e) :
    e.opens pin = true ↔ Auth.ofBytes (acc.reads pin) = e.secret := by
  obtain ⟨c, -, -, old⟩ := credential_some held
  unfold Credential.opens Account.reads
  rw [old, decide_eq_true_eq]
  by_cases legacy : acc.tag.read = none
  · simp only [legacy, decide_true, if_true]
    exact Iff.rfl
  · simp only [legacy, decide_false, Bool.false_eq_true, if_false]
    exact Iff.rfl

/-- An account accepts what opens its credential. -/
theorem Account.Regular.accepts (regular : acc.Regular) (held : acc.credential = some e)
    (open_ : ¬ e.shut) (short : (asBytes pin.str).length ≤ authValueMax) :
    (∃ c, acc.Accepts pin c) ↔ e.opens pin = true := by
  obtain ⟨c, slot, gate, -⟩ := credential_some held
  have unlocked : ¬ c.locked := by
    rw [gate_open, gate]
    exact Nat.not_le.1 open_
  rw [opens_iff held]
  constructor
  · rintro ⟨c', accepts⟩
    have opens := ((accepts_iff regular.sound.known).1 accepts).1
    exact (SlotState.written.inj (opens.written.symm.trans slot)).1
  · intro same
    refine ⟨c, (accepts_iff regular.sound.known).2 ⟨⟨?_, unlocked, ?_⟩, reads_length short⟩⟩
    · rw [same, slot]
    · exact regular.sound.low _ _ slot

/-- How a verification tells what happened at the gate. -/
inductive Entrance.Told : Entrance → VerificationResult → Prop where
  | opened (data : PinData) : Told .opened (.success data)
  | rejected : Told .rejected (.invalid false)
  | shut : Told .shut (.invalid true)

/-- What a match leaves of the account. -/
theorem renew_account (regular : acc.Regular) (held : acc.credential = some e)
    (accepts : acc.Accepts pin c) (short : (asBytes pin.str).length ≤ authValueMax)
    (positive : 0 < limit.toNat) (low : limit.toNat < 2 ^ 31) : ∃ data acc',
    acc.verifyPin uid pin limit = (.ok (.success data), acc') ∧ acc'.Regular ∧
      acc'.credential = some (e.renew pin limit) := by
  have zero : (c.after true).pinCount.toNat ≤ (c.after true).pinLimit.toNat := Nat.zero_le _
  obtain ⟨slot, tag⟩ := acc
  cases accepts with
  | current current opens fits =>
    obtain rfl : slot = _ := opens.written
    obtain rfl := Option.some.inj held
    have version : tag.read ≠ none := by simp [show tag.read = _ from current]
    rw [verifyPin_current current, opens.exact fits]
    have limited : 0 < (c.after true).pinLimit.toNat := regular.positive _ c rfl
    refine ⟨_, _, rfl, regular_written regular.sound.known limited opens.low zero, ?_⟩
    simp [Credential.renew, credential_written, version, after_true_gate, Pin.auth]
  | legacy legacy opens fits =>
    obtain rfl : slot = _ := opens.written
    obtain rfl := Option.some.inj held
    have limited : 0 < (c.after true).pinLimit.toNat := regular.positive _ c rfl
    rw [verifyPin_legacy legacy opens fits]
    refine ⟨_, _, rfl, ?_⟩
    by_cases canonical : normalizeLegacyPin pin.str = pin.str
    · rw [Account.migrateLegacyPinFormat, if_pos canonical]
      refine ⟨regular_written current_known limited opens.low zero, ?_⟩
      rw [Credential.renew, if_neg fun respelled => respelled.2 canonical]
      rfl
    · rw [migrate_respelled canonical (by simp), setupPin_stored rfl (refusal_short short)]
      refine ⟨regular_fresh positive low, ?_⟩
      rw [Credential.renew, if_pos ⟨decide_eq_true legacy, canonical⟩]
      rfl

/-- A verification is an attempt at the gate of the credential; what was accepted would be
again. -/
theorem verifyPin_attempt (regular : acc.Regular) (held : acc.credential = some e) (open_ : ¬ e.shut)
    (short : (asBytes pin.str).length ≤ authValueMax) (positive : 0 < limit.toNat)
    (low : limit.toNat < 2 ^ 31) : ∃ v acc',
    acc.verifyPin uid pin limit = (.ok v, acc') ∧ Entrance.Told (e.attempt pin limit).1 v ∧
      acc'.Regular ∧ acc'.credential = some (e.attempt pin limit).2 ∧
      ((e.attempt pin limit).1 = .opened → ∃ c, acc'.Accepts pin c) := by
  cases opens : e.opens pin with
  | true =>
    obtain ⟨c, accepts⟩ := (regular.accepts held open_ short).2 opens
    obtain ⟨data, acc', verified, kept, left⟩ :=
      @renew_account uid limit acc pin e c regular held accepts short positive low
    rw [Credential.attempt_opened opens open_]
    refine ⟨_, acc', verified, .opened data, kept, left, fun _ => ?_⟩
    exact (kept.accepts left (Credential.renew_open positive open_) short).2
      (Credential.renew_opens opens)
  | false =>
    have wrong : ¬ ∃ c, acc.Accepts pin c := by
      rw [regular.accepts held open_ short, opens]
      exact Bool.false_ne_true
    obtain ⟨c, slot, gate, old⟩ := credential_some held
    have unlocked : ¬ c.locked := by
      rw [gate_open, gate]
      exact Nat.not_le.1 open_
    have next := after_false_gate unlocked
    have within : (c.after false).pinCount.toNat ≤ c.pinLimit.toNat := by
      have used : (c.after false).pinCount.toNat = c.pinCount.toNat + 1 := congrArg Gate.used next
      have below : c.pinCount.toNat < c.pinLimit.toNat := gate_open.1 unlocked
      omega
    have last : (c.after false).locked ↔ e.gate.limit ≤ e.gate.used + 1 := by
      rw [← gate, ← not_iff_not, gate_open, next, Nat.not_le]
    rw [Credential.attempt_missed opens open_,
      @verifyPin_miss uid limit acc pin _ c regular.sound slot unlocked wrong (reads_length short)]
    have left := @regular_written e.secret (c.after false) _ regular.sound.known
      (regular.positive _ c slot) (regular.sound.low _ c slot) within
    refine ⟨_, _, rfl, ?_, left, ?_, ?_⟩
    · by_cases reached : e.gate.limit ≤ e.gate.used + 1
      · rw [if_pos reached, decide_eq_true (last.2 reached)]
        exact .shut
      · rw [if_neg reached, decide_eq_false (mt last.1 reached)]
        exact .rejected
    · rw [credential_written, next, ← old, gate]
    · intro opened
      split at opened
      all_goals cases opened

end Accounts

end Pinpam
