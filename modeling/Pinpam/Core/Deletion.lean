import Pinpam.Core.Lockout

/-!
# Authenticated deletion

`delete_pin_with_auth` verifies the PIN and deletes the slot. A verification by the old
rule rewrites the slot before that, under the PIN as it was entered, so what is deleted
may be another slot than the one that was checked; what is left is the same.
-/

namespace Pinpam
set_option autoImplicit false
open Pinpam.Effect Pinpam.Effect.Fallible

/-- What an authenticated deletion does to an account with this slot. -/
structure DeletesWithAuth {uid : UInt32} (serves : Serves uid) (m : PinManager) (pin : Pin)
    (acc : Account) (a : Auth) (c : PinCounters) (t : Tpm) : Prop where
  succeeds : (exec Tpm.exec (m.deletePinWithAuth uid pin) t).1 = .ok .success ↔
    ¬ c.locked ∧ a = .ofBytes (acc.reads pin)
  /-- nothing is left, and a new PIN can be set up -/
  removed : (exec Tpm.exec (m.deletePinWithAuth uid pin) t).1 = .ok .success →
    (exec Tpm.exec (m.deletePinWithAuth uid pin) t).2.Shows serves ⟨.absent, .absent⟩ ∧
      ∀ (m' : PinManager) (new : Pin), (asBytes new.str).length ≤ authValueMax →
        (exec Tpm.exec (m'.setupPin uid new) (exec Tpm.exec (m.deletePinWithAuth uid pin) t).2).1 =
          .ok ()
  /-- only the count moves, by one attempt if the slot was open -/
  kept : (exec Tpm.exec (m.deletePinWithAuth uid pin) t).1 ≠ .ok .success → ∃ count : UInt32,
    (exec Tpm.exec (m.deletePinWithAuth uid pin) t).2.Shows serves
        ⟨.written a ⟨count, c.pinLimit⟩, acc.tag⟩ ∧
      (count.toNat = c.pinCount.toNat + 1 ↔ ¬ c.locked) ∧ (c.locked → count = c.pinCount)

section Deletion

variable {uid limit : UInt32} {serves : Serves uid} {t : Tpm} {acc : Account} {pin : Pin}
  {m : PinManager} {a : Auth} {c : PinCounters} {s : Str}

/-- The old rule does not make a PIN longer. -/
theorem normalizeLegacyPin_length (nonempty : s ≠ []) :
    (asBytes (normalizeLegacyPin s)).length ≤ (asBytes s).length := by
  have split : s.takeWhile (· == '0') ++ s.dropWhile (· == '0') = s := List.takeWhile_append_dropWhile
  have bytes := congrArg (fun s => (asBytes s).length) split
  simp only [asBytes_append, List.length_append] at bytes
  unfold normalizeLegacyPin
  by_cases zeros : s.dropWhile (· == '0') = []
  · have filled : asBytes s ≠ [] := fun empty => nonempty (asBytes_injective empty)
    have one : (asBytes ['0']).length = 1 := by decide
    have positive := List.length_pos_of_ne_nil filled
    simp only [zeros, if_true]
    omega
  · simp only [zeros, if_false]
    omega

theorem reads_length (short : (asBytes pin.str).length ≤ authValueMax) :
    (acc.reads pin).length ≤ authMaxSize := by
  have shorter := normalizeLegacyPin_length pin.nonempty
  have below : authValueMax ≤ authMaxSize := by decide
  unfold Account.reads
  split <;> omega

/-- The TPM takes a PIN of at most 32 bytes for a new slot. -/
theorem refusal_short (short : (asBytes pin.str).length ≤ authValueMax) :
    Account.refusal (asBytes pin.str) .absent = none := by
  have stripped := Auth.ofBytes_length_le (asBytes pin.str)
  have below : authValueMax ≤ authMaxSize := by decide
  exact refusal_eq_none.2 ⟨by omega, rfl, by omega⟩

/-- A migration leaves a slot, the same one or one under the PIN as entered. -/
theorem migrate_present (taken : Account.refusal (asBytes pin.str) .absent = none)
    (present : acc.slot ≠ .absent) :
    (acc.migrateLegacyPinFormat uid pin limit).2.slot ≠ .absent := by
  by_cases canonical : normalizeLegacyPin pin.str = pin.str
  · rw [Account.migrateLegacyPinFormat, if_pos canonical]
    exact present
  · rw [migrate_respelled canonical present, setupPin_stored rfl taken]
    simp

theorem deletePinAdmin_present (present : acc.slot ≠ .absent) :
    acc.deletePinAdmin uid = (.ok (), ⟨.absent, .absent⟩) :=
  if_neg present

/-- An account that accepts the PIN is cleared. -/
theorem deletePinWithAuth_accepted (short : (asBytes pin.str).length ≤ authValueMax)
    (accepts : acc.Accepts pin c) :
    acc.deletePinWithAuth uid pin limit = (.ok .success, ⟨.absent, .absent⟩) := by
  have verified :
      ∃ data acc', acc.verifyPin uid pin limit = (.ok (.success data), acc') ∧ acc'.slot ≠ .absent := by
    cases accepts with
    | current tag opens fits =>
      rw [verifyPin_current tag, opens.exact fits]
      exact ⟨_, _, rfl, by simp⟩
    | legacy tag opens fits =>
      rw [verifyPin_legacy tag opens fits]
      exact ⟨_, _, rfl, migrate_present (refusal_short short) (by simp)⟩
  obtain ⟨data, acc', success, present⟩ := verified
  unfold Account.deletePinWithAuth
  rw [success]
  dsimp only
  rw [deletePinAdmin_present present]
  rfl

/-- An account that does not is only compared with. -/
theorem deletePinWithAuth_refused (known : acc.tag.Known) (short : (acc.reads pin).length ≤ authMaxSize)
    (wrong : ¬ ∃ c, acc.Accepts pin c) :
    (acc.deletePinWithAuth uid pin limit).1 ≠ .ok .success ∧
      (acc.deletePinWithAuth uid pin limit).2 =
      { acc with slot := acc.slot.compared (.ofBytes (acc.reads pin)) } := by
  have compared :
      (acc.verifyPin uid pin limit).2 =
      { acc with slot := acc.slot.compared (.ofBytes (acc.reads pin)) } := by
    rw [verifyPin_wrong known wrong, Account.verifyPinExact,
      if_neg fun long => absurd short (Nat.not_le.2 long.2)]
  have fails : ∀ data, (acc.verifyPin uid pin limit).1 ≠ .ok (.success data) := by
    intro data success
    obtain ⟨c, accepts, -⟩ := verifyPin_success_iff.1 success
    exact wrong ⟨c, accepts⟩
  unfold Account.deletePinWithAuth
  rcases result : acc.verifyPin uid pin limit with ⟨e | (data | locked | _), acc'⟩
  all_goals rw [result] at compared fails
  · exact ⟨by simp, compared⟩
  · exact absurd rfl (fails data)
  · exact ⟨by simp, compared⟩
  · exact ⟨by simp, compared⟩

/-- The deletion, whatever the format of the slot and the spelling of the PIN. -/
theorem deletePinWithAuth_deletes (shows_ : t.Shows serves acc) (slot : acc.slot = .written a c)
    (known : acc.tag.Known) (low : c.pinLimit.toNat < 2 ^ 31)
    (short : (asBytes pin.str).length ≤ authValueMax) :
    DeletesWithAuth serves m pin acc a c t := by
  have fits := @reads_length acc pin short
  have accepted : (∃ c, acc.Accepts pin c) ↔ ¬ c.locked ∧ a = .ofBytes (acc.reads pin) := by
    constructor
    · rintro ⟨c', accepts⟩
      obtain ⟨⟨written, unlocked, -⟩, -⟩ := (accepts_iff known).1 accepts
      obtain ⟨rfl, rfl⟩ := SlotState.written.inj (slot.symm.trans written)
      exact ⟨unlocked, rfl⟩
    · rintro ⟨unlocked, rfl⟩
      exact ⟨c, (accepts_iff known).2 ⟨⟨slot, unlocked, low⟩, fits⟩⟩
  rw [← shows_.eq_put]
  by_cases accepts : ∃ c, acc.Accepts pin c
  · obtain ⟨c', open_⟩ := accepts
    have deleted :
        exec Tpm.exec (m.deletePinWithAuth uid pin) (t.put serves acc) =
        (.ok .success, t.put serves ⟨.absent, .absent⟩) := by
      rw [exec_deletePinWithAuth, deletePinWithAuth_accepted short open_]
    constructor
    · rw [deleted]
      exact ⟨fun _ => accepted.1 ⟨c', open_⟩, fun _ => rfl⟩
    · rw [deleted]
      refine fun _ => ⟨Tpm.put_shows, fun m' new small => ?_⟩
      rw [exec_setupPin, setupPin_stored rfl (refusal_short small)]
    · rw [deleted]
      exact fun other => absurd rfl other
  · obtain ⟨failed, left⟩ :=
      @deletePinWithAuth_refused uid m.policy.maxAttempts acc pin known fits accepts
    have kept : (exec Tpm.exec (m.deletePinWithAuth uid pin) (t.put serves acc)).2 =
        t.put serves { acc with slot := acc.slot.compared (.ofBytes (acc.reads pin)) } := by
      rw [exec_deletePinWithAuth, left]
    rw [accepted] at accepts
    have refused :
        (exec Tpm.exec (m.deletePinWithAuth uid pin) (t.put serves acc)).1 ≠ .ok .success := by
      rw [exec_deletePinWithAuth]
      exact failed
    constructor
    · exact ⟨fun success => absurd success refused, fun open_ => absurd open_ accepts⟩
    · exact fun success => absurd success refused
    · intro _
      rw [kept, slot]
      by_cases locked : c.locked
      · refine ⟨c.pinCount, ?_, ⟨by omega, fun unlocked => absurd locked unlocked⟩, fun _ => rfl⟩
        rw [compared_locked locked]
        exact Tpm.put_shows
      · have below := UInt32.lt_iff_toNat_lt.1 (UInt32.not_le.1 locked)
        have next : (c.pinCount + 1).toNat = c.pinCount.toNat + 1 := by
          rw [UInt32.toNat_add, UInt32.toNat_one]
          omega
        have other : Auth.ofBytes (acc.reads pin) ≠ a := fun same => accepts ⟨locked, same.symm⟩
        refine ⟨c.pinCount + 1, ?_, ⟨fun _ => locked, fun _ => next⟩,
          fun closed => absurd closed locked⟩
        rw [compared_miss locked other]
        exact Tpm.put_shows

end Deletion

/-- A legacy slot and a PIN with a zero in front: the slot that is deleted was rewritten
under the longer PIN. -/
theorem deletePinWithAuth_deletes_once : DeletesWithAuth serves_thousand defaultManager chosenPin
    ⟨.written chosenPin.legacyAuth ⟨1, 3⟩, .unwritten⟩ chosenPin.legacyAuth ⟨1, 3⟩
    (Tpm.empty.put serves_thousand ⟨.written chosenPin.legacyAuth ⟨1, 3⟩, .unwritten⟩) :=
  deletePinWithAuth_deletes Tpm.put_shows rfl (.inl rfl) (by decide) (by decide)

end Pinpam
