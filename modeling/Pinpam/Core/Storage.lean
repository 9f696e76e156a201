import Mathlib.Logic.Relation
import Pinpam.Core.Calls

/-!
# The storage format

The slot and the tag that says how to read it are written one after the other. A run
of the system keeps them in step, kills included, except for the kill of a process
that has stored a PIN with leading zeros and not yet its tag.
-/

namespace Pinpam
set_option autoImplicit false
open Pinpam.Effect Pinpam.Effect.Fallible

/-! ## Plain PINs -/

/-- The PIN is stored alike by the old format and by the current one. -/
structure Pin.Plain (pin : Pin) : Prop where
  canonical : normalizeLegacyPin pin.str = pin.str
  nonempty : pin.auth ≠ Auth.empty

/-- An `authValue` the old format may have written. -/
def Auth.Canonical (a : Auth) : Prop := ∃ s, asBytes s = a.bytes ∧ normalizeLegacyPin s = s

theorem Pin.Plain.auth_canonical {pin : Pin} (plain : pin.Plain) : pin.auth.Canonical := by
  refine ⟨pin.str.rdropWhile (· == '\x00'), (stripZeros_asBytes pin.str).symm, ?_⟩
  obtain zero | head := normalizeLegacyPin_canonical plain.canonical
  · rw [zero]
    rfl
  have rest : pin.str.rdropWhile (· == '\x00') ≠ [] := by
    intro gone
    apply plain.nonempty
    apply Auth.ext
    exact (stripZeros_asBytes pin.str).trans (congrArg asBytes gone)
  apply normalizeLegacyPin_of_head rest
  obtain ⟨nuls, split⟩ := List.rdropWhile_prefix (· == '\x00') pin.str
  rwa [← split, List.head?_append_of_ne_nil _ rest] at head

/-- A PIN with leading zeros is not stored as it was by the old format. -/
theorem Pin.auth_ne_legacyAuth {pin : Pin} (spelled : normalizeLegacyPin pin.str ≠ pin.str) :
    pin.auth ≠ pin.legacyAuth := by
  intro same
  have stripped :
      pin.str.rdropWhile (· == '\x00') = (normalizeLegacyPin pin.str).rdropWhile (· == '\x00') := by
    apply asBytes_injective
    rw [← stripZeros_asBytes, ← stripZeros_asBytes]
    exact congrArg Auth.bytes same
  have head : pin.str.head? = some '0' := by
    by_contra other
    exact spelled (normalizeLegacyPin_of_head pin.nonempty other)
  have kept : pin.str.rdropWhile (· == '\x00') ≠ [] := by
    intro gone
    have nul := List.rdropWhile_eq_nil_iff.1 gone '0' (List.mem_of_mem_head? head)
    cases nul
  obtain ⟨nuls, split⟩ := List.rdropWhile_prefix (· == '\x00') pin.str
  rw [← split, List.head?_append_of_ne_nil _ kept] at head
  obtain zero | other := normalizeLegacyPin_canonical (normalizeLegacyPin_idem pin.str)
  · -- nothing but zeros, so nothing is stripped from either
    have all : ∀ c ∈ pin.str, c = '0' := by
      by_contra some_
      have rest : pin.str.dropWhile (· == '0') ≠ [] := fun none_ =>
        some_ fun c member => beq_iff_eq.1 (List.dropWhile_eq_nil_iff.1 none_ c member)
      simp only [normalizeLegacyPin, if_neg rest] at zero
      have stop := head?_dropWhile_not (· == '0') pin.str (congrArg List.head? zero)
      cases stop
    have whole : pin.str.rdropWhile (· == '\x00') = pin.str := by
      apply List.rdropWhile_eq_self_iff.2
      intro nonempty nul
      rw [all _ (List.getLast_mem nonempty)] at nul
      cases nul
    apply spelled
    rw [whole, zero] at stripped
    rw [stripped]
    rfl
  · apply other
    obtain ⟨nuls', split'⟩ := List.rdropWhile_prefix (· == '\x00') (normalizeLegacyPin pin.str)
    rw [← split', ← stripped, List.head?_append_of_ne_nil _ kept]
    exact head

/-! ## The system -/

/-- What the slot holds once it is written. -/
def SlotState.stored : SlotState → Option Auth
  | .written a _ => some a
  | _ => none

/-- The `authValue` of the written slot of a user. -/
def Tpm.stored (t : Tpm) (uid : UInt32) : Option Auth :=
  match nvIndexForUid uid with
  | .ok i => ((t.nv i).filter (·.area.written)).map NvIndex.authValue
  | .error _ => none

/-- The TPM and, for each user, the PIN of the call that made the slot what it is. -/
structure Store where
  tpm : Tpm
  origin : UInt32 → Option Pin

def Store.empty : Store := ⟨Tpm.empty, fun _ => none⟩

/-- A call for `uid` left the TPM as `t`. -/
def Store.next (s : Store) (uid : UInt32) (call : ManagerCall) (t : Tpm) : Store where
  tpm := t
  origin u := if u = uid ∧ t.stored u ≠ s.tpm.stored u then call.pin else s.origin u

/-- A call returned, or its process was killed after some of its commands; `L` says
which policies there are and `K` which kills. -/
inductive StorageStep (L : PinManager → Prop) (K : UInt32 → ManagerCall → Tpm → Tpm → Prop)
    (s : Store) : Store → Prop where
  | returned {m : PinManager} (policy : L m) (uid : UInt32) (call : ManagerCall) :
      StorageStep L K s (s.next uid call (exec Tpm.exec (call.program m uid) s.tpm).2)
  | killed {m : PinManager} (policy : L m) (uid : UInt32) (call : ManagerCall) (n : Nat)
      (allowed : K uid call s.tpm (Prog.after Tpm.exec n (call.program m uid).run s.tpm)) :
      StorageStep L K s (s.next uid call (Prog.after Tpm.exec n (call.program m uid).run s.tpm))

/-- The call has stored its own PIN, which is not plain, and not yet the tag. -/
def Torn (uid : UInt32) (call : ManagerCall) (t t' : Tpm) : Prop :=
  ∃ (serves : Serves uid) (p : Pin) (c : PinCounters) (tag : TagState), call.pin = some p ∧ ¬ p.Plain ∧
    t'.Shows serves ⟨.written p.auth c, tag⟩ ∧ tag.read = none ∧ t.stored uid ≠ some p.auth

/-- Every written slot is read as it was stored: one without a tag holds a value of the
old format, and one that is unlocked accepts the PIN it was made with. -/
def Store.Formatted (s : Store) : Prop := ∀ uid (serves : Serves uid), ∃ acc, s.tpm.Shows serves acc ∧
  ∀ a c, acc.slot = .written a c →
    (acc.tag = .absent ∨ acc.tag = .unwritten → a.Canonical) ∧
      (¬ c.locked → ∃ p, s.origin uid = some p ∧
        ∀ m : PinManager, ∃ data, (exec Tpm.exec (m.verifyPin uid p) s.tpm).1 = .ok (.success data))

/-! ## The invariant -/

/-- The tag is absent, unwritten or current. -/
def TagState.Known (tag : TagState) : Prop := tag.read = none ∨ tag.read = some PIN_VERSION_CURRENT

/-- What a run keeps of an account whose slot was made with `origin`. -/
structure Account.Made (origin : Option Pin) (acc : Account) : Prop where
  known : acc.tag.Known
  slot : ∀ a c, acc.slot = .written a c → ∃ p, origin = some p ∧ a = p.auth ∧
    c.pinLimit.toNat < 2 ^ 31 ∧ (asBytes p.str).length ≤ authMaxSize ∧
    (acc.tag.read = none → p.Plain)

/-- The origin of an account after a call that left it as `a`. -/
def ManagerCall.settles (call : ManagerCall) (origin : Option Pin) (acc a : Account) : Option Pin :=
  if a.slot.stored ≠ acc.slot.stored then call.pin else origin

/-- The call stored its own PIN, which is not plain, without the tag. -/
def ManagerCall.Tears (call : ManagerCall) (acc a : Account) : Prop :=
  ∃ p c, call.pin = some p ∧ ¬ p.Plain ∧ a.slot = .written p.auth c ∧ a.tag.read = none ∧
  acc.slot.stored ≠ some p.auth

section Invariant

variable {uid limit : UInt32} {acc start a : Account} {origin : Option Pin} {pin : Pin}
  {call : ManagerCall}

theorem TagState.Becomes.known {tag tag' : TagState}
    (becomes : tag.Becomes PIN_VERSION_CURRENT tag') (was : tag.Known) :
    tag'.Known := by
  cases becomes with
  | same => exact was
  | defined => exact .inl rfl
  | written => exact .inr rfl

theorem compared_stored {slot : SlotState} (b : Auth) : (slot.compared b).stored = slot.stored := by
  cases slot with
  | absent => rfl
  | unwritten => rfl
  | written a c =>
    unfold SlotState.compared
    dsimp only
    split <;> rfl

theorem compared_limit {slot : SlotState} {a b : Auth} {c : PinCounters}
    (written : slot.compared b = .written a c) :
    ∃ c', slot = .written a c' ∧ c.pinLimit = c'.pinLimit := by
  cases slot with
  | absent => cases written
  | unwritten => cases written
  | written a' c' =>
    unfold SlotState.compared at written
    dsimp only at written
    by_cases locked : c'.locked
    · rw [if_pos locked] at written
      cases written
      exact ⟨c, rfl, rfl⟩
    · rw [if_neg locked] at written
      cases written
      exact ⟨c', rfl, rfl⟩

/-- A slot that is gone, or not written yet, has nothing to keep. -/
theorem Account.Made.unstored (known : a.tag.Known) (slot : a.slot.stored = none) : a.Made origin where
  known := known
  slot := by
    intro b c written
    rw [written] at slot
    cases slot

/-- A slot that was compared, with the tag as it was or now current. -/
theorem Account.Made.compared {b : Auth} {tag : TagState} (made : acc.Made origin) (known : tag.Known)
    (later : tag.read = none → acc.tag.read = none) :
    Account.Made (call.settles origin acc ⟨acc.slot.compared b, tag⟩) ⟨acc.slot.compared b, tag⟩ where
  known := known
  slot := by
    intro a c written
    obtain ⟨c', was, limit⟩ := compared_limit written
    obtain ⟨p, first, value, low, short, plain⟩ := made.slot a c' was
    refine ⟨p, ?_, value, limit ▸ low, short, fun untagged => plain (later untagged)⟩
    rw [ManagerCall.settles, if_neg (not_not.2 (compared_stored b)), first]

theorem Account.Made.refl (made : acc.Made origin) : acc.Made (call.settles origin acc acc) := by
  rwa [ManagerCall.settles, if_neg (not_not.2 rfl)]

theorem Account.SetsUp.known (sets : start.SetsUp pin limit a) (was : start.tag.Known) :
    a.tag.Known := by
  cases sets with
  | start => exact was
  | defined => exact was
  | stored _ becomes => exact becomes.known was
  | rolledBack _ gone =>
    rcases gone with becomes | rfl
    · exact becomes.known was
    · exact .inl rfl

/-- A setup in the course of a call, from an account with another slot or none. -/
theorem Account.SetsUp.made (sets : start.SetsUp pin limit a) (was : start.tag.Known)
    (low : limit.toNat < 2 ^ 31) (given : call.pin = some pin) (whole : ¬ call.Tears acc a)
    (unlike : refusal (asBytes pin.str) start.slot = none → acc.slot.stored ≠ some pin.auth)
    (kept : start.Made (call.settles origin acc start)) : a.Made (call.settles origin acc a) := by
  have known := sets.known was
  cases sets with
  | start => exact kept
  | defined => exact .unstored known rfl
  | stored fresh becomes =>
    constructor
    · exact known
    rintro b c ⟨⟩
    refine ⟨pin, ?_, rfl, low, (refusal_eq_none.1 fresh).1, fun untagged => ?_⟩
    · exact (if_pos (unlike fresh).symm).trans given
    · by_contra spelled
      exact whole ⟨pin, _, given, spelled, rfl, untagged, unlike fresh⟩
  | rolledBack => exact .unstored known rfl

theorem Account.Verifies.known (verifies : acc.Verifies uid pin limit a) (was : acc.tag.Known) :
    a.tag.Known := by
  cases verifies with
  | start => exact was
  | compared => exact was
  | comparedLegacy => exact was
  | migrates _ _ migrates =>
    cases migrates with
    | start => exact was
    | tagged _ becomes => exact becomes.known was
    | replaced _ _ tag sets =>
      apply sets.known
      rcases tag with rfl | rfl
      · exact was
      · exact .inl rfl

theorem Account.Verifies.made (verifies : acc.Verifies uid pin limit a) (made : acc.Made origin)
    (low : limit.toNat < 2 ^ 31) (given : call.pin = some pin) (whole : ¬ call.Tears acc a) :
    a.Made (call.settles origin acc a) := by
  have known := verifies.known made.known
  cases verifies with
  | start => exact made.refl
  | compared => exact made.compared known id
  | comparedLegacy => exact made.compared known id
  | migrates legacy hit migrates =>
    cases migrates with
    | start => exact made.compared known id
    | tagged => exact made.compared known fun _ => legacy
    | @replaced spelled present tag was _ sets =>
      -- the slot held the legacy form of the PIN, so the new value is another
      obtain ⟨-, c, slot, -⟩ := exact_success hit
      have unlike : acc.slot.stored ≠ some pin.auth := by
        rw [slot]
        exact fun same => Pin.auth_ne_legacyAuth spelled (Option.some.inj same).symm
      have start : tag.Known := by
        rcases was with rfl | rfl
        · exact made.known
        · exact .inl rfl
      exact sets.made start low given whole (fun _ => unlike) (.unstored start rfl)

/-- What a slot holds is new only under the current tag. -/
def Account.Settled (acc a : Account) : Prop :=
  a.slot.stored = acc.slot.stored ∨ a.slot.stored = none ∨ a.tag.read = some PIN_VERSION_CURRENT

theorem Account.Settled.whole (settled : acc.Settled a) : ¬ call.Tears acc a := by
  rintro ⟨p, c, -, -, slot, tag, unlike⟩
  have stored : a.slot.stored = some p.auth := by rw [slot]; rfl
  rcases settled with same | none_ | current
  · exact unlike (same.symm.trans stored)
  · rw [stored] at none_
    cases none_
  · rw [tag] at current
    cases current

theorem setupPin_settled : acc.Settled (acc.setupPin uid pin limit).2 := by
  unfold Account.setupPin
  split
  · exact .inl rfl
  split
  · exact .inl rfl
  · exact .inr (.inr rfl)

theorem exact_stored {bytes : Bytes} :
    (acc.verifyPinExact uid bytes).2.slot.stored = acc.slot.stored := by
  obtain same | moved := @verifyPinExact_visits uid acc bytes
  · rw [same]
  · rw [moved]
    exact compared_stored _

theorem migrate_settled : acc.Settled (acc.migrateLegacyPinFormat uid pin limit).2 := by
  unfold Account.migrateLegacyPinFormat Account.deletePinAdmin
  split
  · exact .inl rfl
  by_cases absent : acc.slot = .absent
  · rw [if_pos absent]
    exact .inl rfl
  · rw [if_neg absent]
    rcases @setupPin_settled uid limit ⟨.absent, .absent⟩ pin with same | none_ | current
    · exact .inr (.inl same)
    · exact .inr (.inl none_)
    · exact .inr (.inr current)

theorem verifyPin_settled : acc.Settled (acc.verifyPin uid pin limit).2 := by
  unfold Account.verifyPin
  cases acc.tag.read with
  | some version =>
    dsimp only
    split
    · exact .inl rfl
    · exact .inl exact_stored
  | none =>
    have compared := @exact_stored uid acc (asBytes (normalizeLegacyPin pin.str))
    cases eq : acc.verifyPinExact uid (asBytes (normalizeLegacyPin pin.str)) with
    | mk r b =>
      rw [eq] at compared
      match r with
      | .error _ => exact .inl compared
      | .ok (.invalid _) => exact .inl compared
      | .ok .lockedOut => exact .inl compared
      | .ok (.success _) =>
        rcases @migrate_settled uid limit b pin with same | none_ | current
        · exact .inl (same.trans compared)
        · exact .inr (.inl none_)
        · exact .inr (.inr current)

theorem deletePinWithAuth_settled : acc.Settled (acc.deletePinWithAuth uid pin limit).2 := by
  have verified := @verifyPin_settled uid limit acc pin
  unfold Account.deletePinWithAuth
  cases eq : acc.verifyPin uid pin limit with
  | mk r b =>
    rw [eq] at verified
    match r with
    | .error _ => exact verified
    | .ok (.invalid _) => exact verified
    | .ok .lockedOut => exact verified
    | .ok (.success _) =>
      show acc.Settled (b.deletePinAdmin uid).2
      unfold Account.deletePinAdmin
      split
      · exact verified
      · exact .inr (.inl rfl)

theorem result_settled : acc.Settled (call.result uid limit acc) := by
  cases call with
  | setupPin pin => exact setupPin_settled
  | verifyPin pin => exact verifyPin_settled
  | deletePinWithAuth pin => exact deletePinWithAuth_settled
  | deletePinAdmin =>
    unfold ManagerCall.result Account.deletePinAdmin
    dsimp only
    split
    · exact .inl rfl
    · exact .inr (.inl rfl)

/-- What one call keeps, unless it is torn. -/
theorem ManagerCall.Visits.made (visits : call.Visits uid limit acc a) (made : acc.Made origin)
    (low : limit.toNat < 2 ^ 31) (whole : ¬ call.Tears acc a) :
    a.Made (call.settles origin acc a) := by
  cases visits with
  | setsUp sets =>
    apply sets.made made.known low rfl whole _ made.refl
    intro fresh
    rw [(refusal_eq_none.1 fresh).2.1]
    exact nofun
  | verifies verifies => exact verifies.made made low rfl whole
  | deletes deletes =>
    cases deletes with
    | verifies verifies => exact verifies.made made low rfl whole
    | deleted verifies was =>
      apply Account.Made.unstored _ rfl
      rcases was with rfl | rfl
      · exact verifies.known made.known
      · exact .inl rfl
  | kept => exact made.refl
  | removed was =>
    apply Account.Made.unstored _ rfl
    rcases was with rfl | rfl
    · exact made.known
    · exact .inl rfl

end Invariant

/-! ## Runs -/

section Runs

variable {uid : UInt32} {serves : Serves uid} {t : Tpm} {acc : Account}

theorem Tpm.Shows.stored (shows_ : t.Shows serves acc) : t.stored uid = acc.slot.stored := by
  unfold Tpm.stored
  rw [nvIndexForUid_eq serves]
  dsimp only
  rw [shows_.1]
  cases acc.slot <;> rfl

def Store.Sound (s : Store) : Prop :=
  ∀ uid (serves : Serves uid), ∃ acc, s.tpm.Shows serves acc ∧ acc.Made (s.origin uid)

theorem Store.empty_sound : Store.empty.Sound :=
  fun _ _ => ⟨⟨.absent, .absent⟩, ⟨rfl, rfl⟩, .unstored (.inl rfl) rfl⟩

theorem Store.next_own {s : Store} {call : ManagerCall} {a : Account}
    (shows_ : s.tpm.Shows serves acc) :
    (s.next uid call (s.tpm.put serves a)).origin uid = call.settles (s.origin uid) acc a := by
  unfold Store.next ManagerCall.settles
  dsimp only
  rw [Tpm.put_shows.stored, shows_.stored]
  simp only [true_and]

theorem Store.next_other {s : Store} {call : ManagerCall} {u : UInt32} (other : u ≠ uid) :
    (s.next uid call t).origin u = s.origin u :=
  if_neg fun both => other both.1

/-- Wherever a call leaves an account, unless it was torn, the store is sound. -/
theorem Store.Sound.next {s : Store} {call : ManagerCall} {limit : UInt32} {a : Account}
    (sound : s.Sound) (shows_ : s.tpm.Shows serves acc) (visits : call.Visits uid limit acc a)
    (low : limit.toNat < 2 ^ 31) (whole : ¬ call.Tears acc a) :
    (s.next uid call (s.tpm.put serves a)).Sound := by
  intro u serves'
  by_cases own : u = uid
  · subst own
    obtain ⟨acc', shows', made⟩ := sound u serves'
    obtain rfl := shows_.unique shows'
    refine ⟨a, Tpm.put_shows, ?_⟩
    rw [Store.next_own shows_]
    exact visits.made made low whole
  · obtain ⟨acc', shows', made'⟩ := sound u serves'
    refine ⟨acc', (put_shows_other own).2 shows', ?_⟩
    rwa [Store.next_other own]

/-- A call that sends nothing. -/
theorem Store.Sound.unmoved {s : Store} {call : ManagerCall} (sound : s.Sound) :
    (s.next uid call s.tpm).Sound := by
  intro u serves
  obtain ⟨acc, shows_, made⟩ := sound u serves
  refine ⟨acc, shows_, ?_⟩
  have same : (s.next uid call s.tpm).origin u = s.origin u := if_neg fun both => both.2 rfl
  rwa [same]

/-- The runs in which every policy has a limit below `2 ^ 31` and no process is torn. -/
abbrev WholeStep : Store → Store → Prop :=
  StorageStep (fun m => m.policy.maxAttempts.toNat < 2 ^ 31) fun uid call t t' => ¬ Torn uid call t t'

theorem WholeStep.sound {s s' : Store} (step : WholeStep s s') (sound : s.Sound) : s'.Sound := by
  cases step with
  | @returned m low uid call =>
    by_cases serves : Serves uid
    · obtain ⟨acc, shows_, -⟩ := sound uid serves
      have result := @exec_call uid serves s.tpm acc m call
      rw [shows_.eq_put] at result
      rw [result]
      exact sound.next shows_ visits_result low result_settled.whole
    · rw [call_overflow serves]
      exact sound.unmoved
  | @killed m low uid call n allowed =>
    by_cases serves : Serves uid
    · obtain ⟨acc, shows_, -⟩ := sound uid serves
      have cut : ∃ a, call.Visits uid m.policy.maxAttempts acc a ∧
          Prog.after Tpm.exec n (call.program m uid).run s.tpm = s.tpm.put serves a := by
        have visited := after_of_wpx n (@wpx_call uid serves (fun _ => False)
          (fun t => ∃ a, call.Visits uid m.policy.maxAttempts acc a ∧ t = s.tpm.put serves a) s.tpm acc
            m call
          fun a visits => ⟨a, visits, rfl⟩)
        rwa [shows_.eq_put] at visited
      obtain ⟨a, visits, left⟩ := cut
      rw [left] at allowed ⊢
      apply sound.next shows_ visits low
      rintro ⟨p, c, given, spelled, slot, tag, unlike⟩
      refine allowed ⟨serves, p, c, a.tag, given, spelled, ?_, tag, shows_.stored ▸ unlike⟩
      rw [← slot]
      exact Tpm.put_shows
    · rw [call_overflow serves]
      have still : Prog.after Tpm.exec n (throw (.uidOverflow uid) : PinM Unit).run s.tpm = s.tpm :=
        Prog.after_ret n _ _
      rw [still]
      exact sound.unmoved

theorem Store.Sound.formatted {s : Store} (sound : s.Sound) : s.Formatted := by
  intro uid serves
  obtain ⟨acc, shows_, made⟩ := sound uid serves
  refine ⟨acc, shows_, fun a c slot => ?_⟩
  obtain ⟨p, origin, rfl, low, short, plain⟩ := made.slot a c slot
  constructor
  · intro untagged
    apply Pin.Plain.auth_canonical
    apply plain
    rcases untagged with tag | tag <;> rw [tag] <;> rfl
  · intro unlocked
    have accepts : acc.Accepts p c := by
      rcases made.known with legacy | current
      · have same := Pin.legacyAuth_canonical (plain legacy).canonical
        refine .legacy legacy ⟨same.symm ▸ slot, unlocked, low⟩ ?_
        rwa [(plain legacy).canonical]
      · exact .current current ⟨slot, unlocked, low⟩ short
    refine ⟨p, origin, fun m => ⟨(c.after true).data, ?_⟩⟩
    rw [← shows_.eq_put, exec_verifyPin]
    exact accepts.success

/-- In every run without a torn process, kills anywhere else included, every written
slot is read as it was stored. -/
theorem storage_format_kept {s : Store} (run : Relation.ReflTransGen WholeStep .empty s) :
    s.Formatted := by
  have sound : s.Sound := by
    induction run with
    | refl => exact Store.empty_sound
    | tail _ step ih => exact step.sound ih
  exact sound.formatted

/-- A run of one setup that returned. -/
theorem storage_format_kept_by_setup : Store.Formatted (Store.empty.next 1000 (.setupPin chosenPin)
    (exec Tpm.exec ((ManagerCall.setupPin chosenPin).program defaultManager 1000) Tpm.empty).2) :=
  storage_format_kept (.single (.returned (by decide) 1000 (.setupPin chosenPin)))

/-- A setup killed with the slot written and the tag not: the slot holds leading zeros
and would be compared without them. -/
theorem storage_format_torn :
    ¬ ∀ s, Relation.ReflTransGen (StorageStep (fun _ => True) fun _ _ _ _ => True) .empty s →
    s.Formatted := by
  intro claim
  let call := ManagerCall.setupPin chosenPin
  let left := Prog.after Tpm.exec 16 (call.program defaultManager 1000).run Tpm.empty
  have torn : left.Shows serves_thousand ⟨.written chosenPin.auth ⟨0, 3⟩, .absent⟩ := by
    constructor
    · decide +kernel
    · decide +kernel
  obtain ⟨acc, shows_, formatted⟩ :=
    claim _ (.single (@StorageStep.killed _ _ _ defaultManager trivial 1000 call 16 trivial))
      1000 serves_thousand
  obtain rfl := shows_.unique torn
  obtain ⟨s, bytes, canonical⟩ := (formatted _ _ rfl).1 (.inl rfl)
  obtain rfl : s = chosenPin.str := asBytes_injective (bytes.trans (by decide +kernel))
  revert canonical
  decide +kernel

end Runs

end Pinpam
