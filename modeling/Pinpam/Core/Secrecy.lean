import Pinpam.Core.AccountOps
import Pinpam.Effect.Conceal

/-!
# What is seen of a PIN

TPMs that differ in the `authValue` of one slot only. Every command is answered alike by
all of them, but for the one whose value it presents; and that is one attempt less for
the others. So whatever is sent, by whomever and in whatever order, all values but as many
as there are attempts left give the same answers.
-/

namespace Pinpam
set_option autoImplicit false
open Pinpam.Effect

/-- A TPM without the `authValue` of the slot of a user; there are no counters once the slot
is removed. -/
structure Masked where
  tpm : Tpm
  counters : Option PinCounters

namespace Masked

/-- The TPM with this value in the slot. -/
def reveal {uid : UInt32} (serves : Serves uid) (w : Masked) (a : Auth) : Tpm :=
  match w.counters with
  | some c => w.tpm.set (slotHandle uid serves) (some (slotIndex a (some c)))
  | none => w.tpm

/-- The attempts that are left. -/
def left (w : Masked) : Nat :=
  match w.counters with
  | some c => c.pinLimit.toNat - c.pinCount.toNat
  | none => 0

end Masked

section Secrecy

variable {uid : UInt32} {serves : Serves uid} {t : Tpm} {a b : Auth} {c : PinCounters}

/-- A written slot takes no further write. -/
theorem slot_unwritable (auth : NvAuth) (data : Bytes) (offset : Nat)
    (slot : t.nv (slotHandle uid serves) = some (slotIndex a (some c))) :
    Tpm.exec (.nvWrite auth (slotHandle uid serves) data offset) t =
      (refuse (match auth with
        | .owner => .nvAuthorization
        | .index _ => .authUnavailable
        | .policy _ => .policyFail), t) := by
  simp only [Tpm.exec, Tpm.nvWrite, slot]
  cases auth with
  | owner => rfl
  | index b => rfl
  | policy s =>
    have unauthorized : (slotIndex a (some c)).policyAuthorizes s .nvWrite = false := by
      apply Bool.eq_false_iff.2
      intro both
      obtain ⟨digest, holds⟩ := Bool.and_eq_true_iff.1 both
      have same : s.assertions = slotPolicy := of_decide_eq_true digest
      rw [same] at holds
      cases holds
    dsimp only
    rw [unauthorized]
    rfl

/-- A value that is not the one of the slot costs an attempt, and is refused unseen where
there are none. -/
theorem exec_guess (other : b ≠ a) (size offset : Nat)
    (slot : t.nv (slotHandle uid serves) = some (slotIndex a (some c))) :
    Tpm.exec (.nvRead (.index b) (slotHandle uid serves) size offset) t =
      if c.locked then (refuse .authUnavailable, t)
      else (refuse .badAuth,
        t.set (slotHandle uid serves) (some (slotIndex a (some (c.after false))))) := by
  by_cases locked : c.locked
  · have full : c.pinLimit ≤ c.pinCount := locked
    simp only [Tpm.exec, Tpm.nvRead, slot, slotIndex, slotAttributes, NvIndex.present,
      NvIndex.unavailable, if_pos full, if_pos locked, if_true, Tpm.set_self]
  · have free : ¬ c.pinLimit ≤ c.pinCount := locked
    simp only [Tpm.exec, Tpm.nvRead, slot, slotIndex, slotAttributes, NvIndex.present,
      NvIndex.unavailable, if_neg free, if_neg locked, if_true, if_neg other, NvIndex.counted,
      NvIndex.mismatch, PinCounters.after, Bool.false_eq_true, if_false]

/-- A locked slot does not look at the value. -/
theorem exec_locked (locked : c.locked) (size offset : Nat)
    (slot : t.nv (slotHandle uid serves) = some (slotIndex a (some c))) :
    Tpm.exec (.nvRead (.index b) (slotHandle uid serves) size offset) t =
    (refuse .authUnavailable, t) := by
  have full : c.pinLimit ≤ c.pinCount := locked
  simp only [Tpm.exec, Tpm.nvRead, slot, slotIndex, slotAttributes, NvIndex.present,
    NvIndex.unavailable, if_pos full, if_true, Tpm.set_self]

theorem after_left (unlocked : ¬ c.locked) :
    (c.after false).pinLimit.toNat - (c.after false).pinCount.toNat + 1 =
    c.pinLimit.toNat - c.pinCount.toNat := by
  have below := UInt32.lt_iff_toNat_lt.1 (UInt32.not_le.1 unlocked)
  have bound := c.pinLimit.toNat_lt
  have next : (c.pinCount + 1).toNat = c.pinCount.toNat + 1 := by
    rw [UInt32.toNat_add, UInt32.toNat_one]
    omega
  simp only [PinCounters.after, Bool.false_eq_true, if_false, next]
  omega

/-- A command without effect is answered alike whatever the value is. -/
theorem exec_alike {cmd : NvCmd} (quiet : cmd.Quiet) (w : Masked) : ∃ r : Answer cmd, ∀ a,
    Tpm.exec cmd (w.reveal serves a) = (r, w.reveal serves a) := by
  obtain ⟨t, _ | c⟩ := w
  · exact ⟨(Tpm.exec cmd t).1, fun _ => Prod.ext rfl (exec_quiet quiet)⟩
  by_cases named : cmd.index = some (slotHandle uid serves)
  · have slot : ∀ a, ((Masked.mk t (some c)).reveal serves a).nv (slotHandle uid serves) =
        some (slotIndex a (some c)) := fun a => Tpm.nv_set_self
    suffices answers : ∃ r : Answer cmd, ∀ a,
        (Tpm.exec cmd ((Masked.mk t (some c)).reveal serves a)).1 = r by
      obtain ⟨r, answer⟩ := answers
      exact ⟨r, fun a => Prod.ext (answer a) (exec_quiet quiet)⟩
    cases cmd with
    | nvReadPublic j =>
      obtain rfl : j = slotHandle uid serves := Option.some.inj named
      refine ⟨.ok 8, fun a => ?_⟩
      simp only [Tpm.exec, slot]
      rfl
    | nvRead auth j size offset =>
      obtain rfl : j = slotHandle uid serves := Option.some.inj named
      cases auth with
      | owner =>
        refine ⟨(slotIndex .empty (some c)).read size offset, fun a => ?_⟩
        simp only [Tpm.exec, Tpm.nvRead, slot]
        rfl
      | policy s =>
        refine ⟨refuse .authUnavailable, fun a => ?_⟩
        simp only [Tpm.exec, Tpm.nvRead, slot]
        rfl
      | index b => exact quiet.elim
    | nvDefineSpace => exact quiet.elim
    | nvWrite => exact quiet.elim
    | nvUndefineSpace => exact quiet.elim
    | _ => cases named
  · refine ⟨(Tpm.exec cmd t).1, fun a => ?_⟩
    have apart := @exec_set_other t cmd _ (some (slotIndex a (some c))) named
    rw [exec_quiet quiet] at apart
    exact apart

/-- A command on the slot that has an effect: it removes the slot, presents a value to it, or
is refused. -/
theorem exec_conceals_slot {cmd : NvCmd} (named : cmd.index = some (slotHandle uid serves))
    (effect : ¬ cmd.Quiet) :
    ConcealsAt (Masked.reveal serves) Masked.left (Tpm.exec cmd) ⟨t, some c⟩ := by
  have slot : ∀ a, ((Masked.mk t (some c)).reveal serves a).nv (slotHandle uid serves) =
      some (slotIndex a (some c)) := fun a => Tpm.nv_set_self
  cases cmd with
  | nvDefineSpace auth pub =>
    have here : pub.nvIndex = slotHandle uid serves := Option.some.inj named
    refine .same ⟨t, some c⟩ (refuse .nvDefined) (Nat.le_refl _) fun a => ?_
    simp only [Tpm.exec, Tpm.nvDefineSpace, here, slot]
    rfl
  | nvWrite auth j data offset =>
    obtain rfl : j = slotHandle uid serves := Option.some.inj named
    exact .same _ _ (Nat.le_refl _) fun a => slot_unwritable auth data offset (slot a)
  | nvUndefineSpace j =>
    obtain rfl : j = slotHandle uid serves := Option.some.inj named
    refine .same ⟨t.set (slotHandle uid serves) none, none⟩ (.ok ()) (Nat.zero_le _) fun a => ?_
    simp only [Tpm.exec, slot]
    simp only [Masked.reveal, Tpm.set_set]
  | nvRead auth j size offset =>
    obtain rfl : j = slotHandle uid serves := Option.some.inj named
    cases auth with
    | owner => exact absurd trivial effect
    | policy s => exact absurd trivial effect
    | index b =>
      by_cases locked : c.locked
      · exact .same _ _ (Nat.le_refl _) fun a => exec_locked locked size offset (slot a)
      · refine ⟨⟨t, some (c.after false)⟩, refuse .badAuth, [b], ?_, fun a unspent => ?_⟩
        · have paid := after_left locked
          simp only [Masked.left, List.length_singleton]
          omega
        · have other : b ≠ a := fun same => unspent (same ▸ List.mem_singleton_self b)
          rw [exec_guess other size offset (slot a), if_neg locked]
          simp only [Masked.reveal, Tpm.set_set]
  | _ => exact absurd trivial effect

/-- What a command gives away of the `authValue` of a slot. -/
theorem exec_conceals (cmd : NvCmd) :
    Conceals (Masked.reveal serves) Masked.left (Tpm.exec cmd) := by
  rintro ⟨t, _ | c⟩
  · exact .same ⟨(Tpm.exec cmd t).2, none⟩ (Tpm.exec cmd t).1 (Nat.le_refl _) fun _ => rfl
  by_cases quiet : cmd.Quiet
  · obtain ⟨r, answer⟩ := @exec_alike uid serves cmd quiet ⟨t, some c⟩
    exact .same _ r (Nat.le_refl _) answer
  by_cases named : cmd.index = some (slotHandle uid serves)
  · exact exec_conceals_slot named quiet
  · exact .same ⟨(Tpm.exec cmd t).2, some c⟩ _ (Nat.le_refl _) fun a => exec_set_other named

/-- The slot of an account, its value masked. -/
theorem masked_put {tag : TagState} :
    (Masked.mk (t.set (tagHandle uid serves) tag.index) (some c)).reveal serves a =
    t.put serves ⟨.written a c, tag⟩ := by
  simp only [Masked.reveal, Tpm.put, SlotState.index]
  rw [Tpm.set_comm slotHandle_ne_tagHandle]

/-- Whatever processes there are, whatever they send, and whichever of it fails: all PINs of
a slot but as many as there are attempts left look the same to them. -/
theorem pin_concealed {α : Type} (serves : Serves uid) (t : Tpm) (tag : TagState) (c : PinCounters)
    (pool : List (Prog NvCmd α)) (schedule : List (Nat × Option Fault)) :
    ∃ guessed : List Auth, guessed.length ≤ c.pinLimit.toNat - c.pinCount.toNat ∧
      ∀ a, a ∉ guessed → ∀ b, b ∉ guessed →
        (Pool.dialogue Tpm.exec schedule pool (t.put serves ⟨.written a c, tag⟩)).1 =
        (Pool.dialogue Tpm.exec schedule pool (t.put serves ⟨.written b c, tag⟩)).1 := by
  have alike := (Conceals.pool (@exec_conceals uid serves) schedule pool).alike
    ⟨t.set (tagHandle uid serves) tag.index, some c⟩
  simp only [masked_put] at alike
  exact alike

end Secrecy

/-! ## Samples -/

/-- One attempt is left, and one process makes it. -/
theorem pin_concealed_once : ∃ guessed : List Auth, guessed.length ≤ 1 ∧
    ∀ a, a ∉ guessed → ∀ b, b ∉ guessed →
      (Pool.dialogue Tpm.exec [(0, none), (0, some ⟨0⟩), (0, none)]
          [(defaultManager.verifyPin 1000 plainPin).run]
          (Tpm.empty.put serves_thousand ⟨.written a ⟨2, 3⟩, .absent⟩)).1 =
        (Pool.dialogue Tpm.exec [(0, none), (0, some ⟨0⟩), (0, none)]
          [(defaultManager.verifyPin 1000 plainPin).run]
          (Tpm.empty.put serves_thousand ⟨.written b ⟨2, 3⟩, .absent⟩)).1 :=
  pin_concealed serves_thousand Tpm.empty .absent ⟨2, 3⟩ _ _

end Pinpam
