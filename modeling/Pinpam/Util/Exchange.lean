import Pinpam.Core.Locality
import Pinpam.Effect.Schedule
import Pinpam.Util.Console

/-!
# Exchanging a PIN under its holder

Root replaces the PIN of a user while another process works with the old one. The
account with a mark, that root has removed the old slot, is a state machine of two
parties; every command of a party is one of its steps.
-/

namespace Pinpam
set_option autoImplicit false
open Pinpam.Effect Pinpam.Effect.Fallible

/-! ## The two parties -/

structure Exchange where
  slot : SlotState
  tag : TagState
  removed : Bool

/-- The slot is there and holds `a`. -/
inductive SlotState.Holds (a : Auth) : SlotState → Prop where
  | unwritten : Holds a (.unwritten a)
  | written (c : PinCounters) : Holds a (.written a c)

inductive Party where
  | holder
  | root

/-- One command of the holder of the old PIN; `b` is the new one. -/
inductive HolderStep (b : Auth) (x : Exchange) : Exchange → Prop where
  | still : HolderStep b x x
  | compared (a : Auth) (spares : ∀ c, x.slot = .written b c → ¬ c.locked → a ≠ b →
    ¬ (c.after false).locked) :
      HolderStep b x { x with slot := x.slot.compared a }
  | deleted (other : ¬ x.slot.Holds b) : HolderStep b x { x with slot := .absent }
  | untagged (gone : x.slot = .absent) (before : x.removed = false) :
      HolderStep b x { x with tag := .absent }
  | defined (a : Auth) (gone : x.slot = .absent) (before : x.removed = false) :
      HolderStep b x { x with slot := .unwritten a }
  | filled (a : Auth) (c : PinCounters) (was : x.slot = .unwritten a) :
      HolderStep b x { x with slot := .written a c }
  | tagged (tag : TagState) (becomes : x.tag.Becomes PIN_VERSION_CURRENT tag) :
      HolderStep b x { x with tag }

/-- One command of root. -/
inductive RootStep (b : Auth) (x : Exchange) : Exchange → Prop where
  | still : RootStep b x x
  | deleted (there : x.slot ≠ .absent) : RootStep b x { x with slot := .absent, removed := true }
  | untagged (after : x.removed = true) : RootStep b x { x with tag := .absent }
  | defined (gone : x.slot = .absent) (after : x.removed = true) :
      RootStep b x { x with slot := .unwritten b }
  | filled (a : Auth) (c : PinCounters) (was : x.slot = .unwritten a) :
      RootStep b x { x with slot := .written a c }
  | tagged (tag : TagState) (becomes : x.tag.Becomes PIN_VERSION_CURRENT tag) :
      RootStep b x { x with tag }

def Party.Step : Party → Auth → Exchange → Exchange → Prop
  | .holder => HolderStep
  | .root => RootStep

def Party.other : Party → Party
  | .holder => .root
  | .root => .holder

/-- A slot that is there once root has removed the old one is the new one. -/
def Exchange.Fair (b : Auth) (x : Exchange) : Prop :=
  x.removed = true → x.slot = .absent ∨ x.slot.Holds b

section Steps

variable {party : Party} {a b : Auth} {x y : Exchange} {slot : SlotState}

theorem SlotState.Holds.compared (holds : slot.Holds b) : (slot.compared a).Holds b := by
  cases holds with
  | unwritten => exact .unwritten
  | written c =>
    unfold SlotState.compared
    dsimp only
    split
    · exact .written c
    · exact .written _

/-- The steps of both parties keep the exchange fair. -/
theorem Party.Step.fair (step : party.Step b x y) (fair : x.Fair b) : y.Fair b := by
  intro removed
  cases party with
  | holder =>
    cases step with
    | still => exact fair removed
    | compared a =>
      rcases fair removed with gone | holds
      · refine .inl ?_
        show x.slot.compared a = .absent
        rw [gone]
        rfl
      · exact .inr holds.compared
    | deleted => exact .inl rfl
    | untagged => exact fair removed
    | defined a gone before =>
      rw [show x.removed = true from removed] at before
      cases before
    | filled a c was =>
      rcases fair removed with gone | holds
      · rw [was] at gone
        cases gone
      · rw [was] at holds
        cases holds
        exact .inr (.written c)
    | tagged => exact fair removed
  | root =>
    cases step with
    | still => exact fair removed
    | deleted => exact .inl rfl
    | untagged => exact fair removed
    | defined => exact .inr .unwritten
    | filled a c was =>
      rcases fair removed with gone | holds
      · rw [was] at gone
        cases gone
      · rw [was] at holds
        cases holds
        exact .inr (.written c)
    | tagged => exact fair removed

end Steps

/-! ## Contracts -/

/-- The TPM and the console, with the mark. -/
structure Trade where
  tpm : Tpm
  console : Console
  removed : Bool

def Trade.view (x : Trade) : Tpm × Console := (x.tpm, x.console)

inductive Outcome where
  | held (reply : Reply)
  | changed (r : PinResult Unit)
  deriving DecidableEq

section Contracts

variable {uid : UInt32} (serves : Serves uid) (q : Pin) (env : Env)

/-- The trade is in the state of the exchange. -/
structure Trade.Is (x : Trade) (s : Exchange) : Prop where
  account : x.tpm.Shows serves ⟨s.slot, s.tag⟩
  removed : x.removed = s.removed

/-- The command removes the slot, or uses up the last attempt of it, though it is that of
the new PIN. -/
def Tramples (t : Tpm) : NvCmd → Prop
  | .nvUndefineSpace i => i = slotHandle uid serves ∧ ∃ c, t.nv i = some (slotIndex q.auth c)
  | .nvRead (.index a) i _ _ => i = slotHandle uid serves ∧ a ≠ q.auth ∧
    ∃ c, t.nv i = some (slotIndex q.auth (some c)) ∧ ¬ c.locked ∧ (c.after false).locked
  | _ => False

/-- The command removes the slot. -/
def Tpm.removes (t : Tpm) : NvCmd → Bool
  | .nvUndefineSpace i => decide (i = slotHandle uid serves) && (t.nv i).isSome
  | _ => false

/-- The mark after a command of the party. -/
def Party.mark (party : Party) (t : Tpm) (c : NvCmd) (removed : Bool) : Bool :=
  match party with
  | .holder => removed
  | .root => removed || t.removes serves c

/-- A line that is typed gives no PIN but `q`. -/
def Types : (c : HostCmd) → Answer c → Prop
  | .readLine, .ok line => ∀ pin, Pin.new line env.policy = .ok pin → pin = q
  | _, _ => True

/-- The contract of a party: each of its commands is a step of it, between steps of the
other. -/
def Party.contract (party : Party) (ends : Outcome → Trade → Prop) :
    Contract UtilCmd Trade Outcome where
  acts
    | .inl c, x, r, y => Tpm.exec c x.tpm = (r, y.tpm) ∧ y.console = x.console ∧
      y.removed = party.mark serves x.tpm c x.removed ∧ (party = .holder → ¬ Tramples serves q x.tpm c)
    | .inr c, x, r, y => Console.any c x.console r y.console ∧ y.tpm = x.tpm ∧
      y.removed = x.removed ∧ Types q env c r
  rely x y := ∀ s, s.Fair q.auth → x.Is serves s → ∃ s', y.Is serves s' ∧
  Relation.ReflTransGen (party.other.Step q.auth) s s'
  guar x y := ∀ s, s.Fair q.auth → x.Is serves s → ∃ s', y.Is serves s' ∧ party.Step q.auth s s'
  ends

/-- What the party knows stays true whatever the other does. -/
def Party.Stable (party : Party) (b : Auth) (φ : Exchange → Prop) : Prop :=
  ∀ x y, x.Fair b → φ x → party.other.Step b x y → φ y

/-- The trade is in a state of which the party knows `φ`. -/
def Trade.Knows (φ : Exchange → Prop) (x : Trade) : Prop := ∃ s, s.Fair q.auth ∧ x.Is serves s ∧ φ s

end Contracts

section Rules

variable {uid : UInt32} {serves : Serves uid} {q : Pin} {env : Env} {party : Party}
  {ends : Outcome → Trade → Prop} {φ : Exchange → Prop} {x y : Trade} {z : Trade × Trade}
  {ε α β : Type}

theorem steps_stable {s s' : Exchange} (stable : party.Stable q.auth φ) (fair : s.Fair q.auth)
    (one : φ s) (steps : Relation.ReflTransGen (party.other.Step q.auth) s s') :
    s'.Fair q.auth ∧ φ s' := by
  induction steps with
  | refl => exact ⟨fair, one⟩
  | tail _ step ih => exact ⟨step.fair ih.1, stable _ _ ih.1 ih.2 step⟩

theorem Trade.Knows.rely (knows : x.Knows serves q φ) (stable : party.Stable q.auth φ)
    (relied : (party.contract serves q env ends).rely x y) : y.Knows serves q φ := by
  obtain ⟨s, fair, is_, one⟩ := knows
  obtain ⟨s', is', steps⟩ := relied s fair is_
  obtain ⟨fair', one'⟩ := steps_stable stable fair one steps
  exact ⟨s', fair', is', one'⟩

theorem Trade.Is.unique {s s' : Exchange} (is_ : x.Is serves s) (is' : x.Is serves s') : s = s' := by
  have account := is_.account.unique is'.account
  have removed := is_.removed.symm.trans is'.removed
  obtain ⟨slot, tag, mark⟩ := s
  obtain ⟨slot', tag', mark'⟩ := s'
  cases account
  cases removed
  rfl

/-- The judgement of a part of a party's program that only talks to the TPM. -/
abbrev Trades (serves : Serves uid) (q : Pin) (env : Env) (party : Party)
    (ends : Outcome → Trade → Prop) (y : Fallible NvCmd ε α) (Q : Except ε α → Trade × Trade → Prop)
    (z : Trade × Trade) : Prop :=
  wpx (Amid (fun c => (party.contract serves q env ends).acts (.inl c))
    (party.contract serves q env ends).rely)
    (fun z => (party.contract serves q env ends).guar z.1 z.2) y Q z

/-- What such a part gives where the party knows `φ` throughout. -/
abbrev Brings (serves : Serves uid) (q : Pin) (env : Env) (party : Party)
    (ends : Outcome → Trade → Prop) (φ : Exchange → Prop) (y : Fallible NvCmd ε α)
    (Φ : Except ε α → Prop) : Prop :=
  Gives (fun c => (party.contract serves q env ends).acts (.inl c)) (Trade.Knows serves q φ)
    (fun event => (party.contract serves q env ends).guar event.before event.after) y Φ

theorem guar_still (same : y.tpm = x.tpm) (mark : y.removed = x.removed) :
    (party.contract serves q env ends).guar x y := by
  intro s _ is_
  refine ⟨s, ⟨same ▸ is_.account, mark.trans is_.removed⟩, ?_⟩
  cases party with
  | holder => exact HolderStep.still
  | root => exact RootStep.still

theorem mark_still {t : Tpm} {c : NvCmd} {removed : Bool} (quiet : c.Quiet) :
    party.mark serves t c removed = removed := by
  cases party with
  | holder => rfl
  | root =>
    cases c with
    | nvUndefineSpace => exact quiet.elim
    | _ => exact Bool.or_false removed

/-- A command from a state of which the party knows `φ`. -/
theorem brings_tpm {c : NvCmd} {Φ : Except TssError c.Out → Prop}
    (act : ∀ s t r t', s.Fair q.auth → φ s → t.Shows serves ⟨s.slot, s.tag⟩ → Tpm.exec c t = (r, t') →
      (party = .holder → ¬ Tramples serves q t c) → Φ r ∧ ∃ s', t'.Shows serves ⟨s'.slot, s'.tag⟩ ∧
        s'.removed = party.mark serves t c s.removed ∧ party.Step q.auth s s' ∧ φ s') :
    Brings serves q env party ends φ (tpm c) Φ := by
  apply gives_op
  rintro x r y ⟨s, fair, is_, one⟩ ⟨run, -, mark, tramples⟩
  obtain ⟨result, s', shows_, marked, step, one'⟩ :=
    act s x.tpm r y.tpm fair one is_.account run tramples
  have is' : y.Is serves s' := ⟨shows_, by rw [mark, marked, is_.removed]⟩
  refine ⟨fun s₁ _ is₁ => ?_, ⟨s', step.fair fair, is', one'⟩, result⟩
  rw [is₁.unique is_]
  exact ⟨s', is', step⟩

/-- A command without an effect, by what it answers. -/
theorem brings_asks {c : NvCmd} {Φ : Except TssError c.Out → Prop} (quiet : c.Quiet)
    (answer : ∀ s t, s.Fair q.auth → φ s → t.Shows serves ⟨s.slot, s.tag⟩ → Φ (Tpm.exec c t).1) :
    Brings serves q env party ends φ (tpm c) Φ := by
  apply brings_tpm
  intro s t r t' fair one shows_ run _
  have result := answer s t fair one shows_
  have same : t' = t := (congrArg Prod.snd run).symm.trans (exec_quiet quiet)
  rw [run] at result
  refine ⟨result, s, same ▸ shows_, (mark_still quiet).symm, ?_, one⟩
  cases party with
  | holder => exact HolderStep.still
  | root => exact RootStep.still

theorem brings_quiet {y : Fallible NvCmd ε α} (quiet : OnlyX NvCmd.Quiet y) :
    Brings serves q env party ends φ y fun _ => True := by
  intro last assured
  refine Prog.wp_mono (Prog.wp_only ?_ quiet assured) fun _ _ _ _ => trivial
  rintro c _ r _ quiet - ⟨x, y, knows, ⟨run, _, mark, _⟩, rfl⟩
  have same : y.tpm = x.tpm := (congrArg Prod.snd run).symm.trans (exec_quiet quiet)
  rw [mark_still quiet] at mark
  refine ⟨guar_still same mark, ?_⟩
  obtain ⟨s, fair, is_, one⟩ := knows
  exact ⟨s, fair, ⟨same ▸ is_.account, mark.trans is_.removed⟩, one⟩

theorem brings_session {f : TssM α} {Φ : Except TssError α → Prop}
    (body : Brings serves q env party ends φ f Φ) :
    Brings serves q env party ends φ (executeWithNullauthSession f) Φ := by
  have start : Brings serves q env party ends φ (tpm (.startAuthSession .hmac))
      fun r => r = .ok .fresh :=
    @brings_asks _ _ _ _ _ _ _ (.startAuthSession .hmac) _ trivial fun _ _ _ _ _ => rfl
  have flush : Brings serves q env party ends φ (tpm .flushContext) fun r => r = .ok () :=
    @brings_asks _ _ _ _ _ _ _ .flushContext _ trivial fun _ _ _ _ _ => rfl
  unfold executeWithNullauthSession
  apply gives_bind start _ nofun
  intro _ _
  apply gives_attempt_bind body
  intro r result
  exact gives_bind flush (fun _ _ => gives_ofResult result) nofun

theorem Party.rely_refl : (party.contract serves q env ends).rely x x := fun s _ is_ => ⟨s, is_, .refl⟩

/-- What a part brings, in the judgement of the whole. -/
theorem trades_brings {y : Fallible NvCmd ε α} {Φ : Except ε α → Prop}
    (stable : party.Stable q.auth φ) (brings : Brings serves q env party ends φ y Φ)
    (guar : (party.contract serves q env ends).guar z.1 z.2) (knows : z.2.Knows serves q φ) :
    Trades serves q env party ends y (fun r z => z.2.Knows serves q φ ∧ Φ r) z :=
  Contract.wpx_gives
    (⟨fun c => (party.contract serves q env ends).acts (.inl c),
      (party.contract serves q env ends).rely,
      (party.contract serves q env ends).guar, ends⟩ : Contract NvCmd Trade Outcome) brings
    (fun x y knows relied => @Trade.Knows.rely _ _ _ env _ ends _ x y knows stable relied)
    (fun _ _ _ _ _ guar => guar) guar knows

/-- A command after which the party knows something else. -/
theorem trades_tpm {c : NvCmd} {Q : Except TssError c.Out → Trade × Trade → Prop}
    (stable : party.Stable q.auth φ) (guar : (party.contract serves q env ends).guar z.1 z.2)
    (knows : z.2.Knows serves q φ)
    (act : ∀ s t r t', s.Fair q.auth → φ s → t.Shows serves ⟨s.slot, s.tag⟩ → Tpm.exec c t = (r, t') →
      (party = .holder → ¬ Tramples serves q t c) → ∃ s', t'.Shows serves ⟨s'.slot, s'.tag⟩ ∧
        s'.removed = party.mark serves t c s.removed ∧ party.Step q.auth s s' ∧
        ∀ z, (party.contract serves q env ends).guar z.1 z.2 → z.2.Knows serves q (· = s') → Q r z) :
    Trades serves q env party ends (tpm c) Q z := by
  refine ⟨guar, fun r y step => ?_⟩
  obtain ⟨relied, run, -, mark, tramples⟩ := step
  obtain ⟨s, fair, is_, one⟩ := knows.rely stable relied
  obtain ⟨s', shows_, marked, step, next⟩ := act s y.1.tpm r y.2.tpm fair one is_.account run tramples
  have is' : y.2.Is serves s' := ⟨shows_, by rw [mark, marked, is_.removed]⟩
  have here : (party.contract serves q env ends).guar y.1 y.2 := by
    intro s₁ _ is₁
    rw [is₁.unique is_]
    exact ⟨s', is', step⟩
  exact ⟨here, next y here ⟨s', step.fair fair, is', rfl⟩⟩

/-- What a part brings, and then the rest. -/
theorem trades_then {y : Fallible NvCmd ε α} {f : α → Fallible NvCmd ε β} {Φ : Except ε α → Prop}
    {Q : Except ε β → Trade × Trade → Prop} (stable : party.Stable q.auth φ)
    (brings : Brings serves q env party ends φ y Φ)
    (guar : (party.contract serves q env ends).guar z.1 z.2) (knows : z.2.Knows serves q φ)
    (next : ∀ a z, Φ (.ok a) → (party.contract serves q env ends).guar z.1 z.2 → z.2.Knows serves q φ →
      Trades serves q env party ends (f a) Q z)
    (fails : ∀ e z, Φ (.error e) → z.2.Knows serves q φ → Q (.error e) z) :
    Trades serves q env party ends (y >>= f) Q z := by
  refine wpx_bind.2 (Prog.wp_mono (trades_brings stable brings guar knows) ?_)
  rintro (e | a) z guar ⟨knows, result⟩
  · exact ⟨guar, fails e z result knows⟩
  · exact next a z result guar knows

theorem trades_session {f : TssM α} {ψ : Except TssError α → Exchange → Prop}
    (stable : party.Stable q.auth φ) (stable' : ∀ r, party.Stable q.auth (ψ r))
    (guar : (party.contract serves q env ends).guar z.1 z.2) (knows : z.2.Knows serves q φ)
    (body : ∀ z, (party.contract serves q env ends).guar z.1 z.2 → z.2.Knows serves q φ →
      Trades serves q env party ends f (fun r z => z.2.Knows serves q (ψ r)) z) :
    Trades serves q env party ends (executeWithNullauthSession f)
      (fun r z => z.2.Knows serves q (ψ r)) z := by
  have start : Brings serves q env party ends φ (tpm (.startAuthSession .hmac))
      fun r => r = .ok .fresh :=
    @brings_asks _ _ _ _ _ _ _ (.startAuthSession .hmac) _ trivial fun _ _ _ _ _ => rfl
  have flush : ∀ r, Brings serves q env party ends (ψ r) (tpm .flushContext) fun r => r = .ok () :=
    fun r =>
    @brings_asks _ _ _ _ _ _ _ .flushContext _ trivial fun _ _ _ _ _ => rfl
  unfold executeWithNullauthSession
  refine trades_then stable start guar knows (fun _ z _ guar knows => ?_) fun e z no => nomatch no
  refine wpx_bind.2 (wpx_attempt.2 (wpx_mono (body z guar knows) fun r z guar knows => ?_))
  refine trades_then (stable' r) (flush r) guar knows (fun _ z _ guar knows => ?_)
    fun e z no => nomatch no
  exact ⟨guar, knows⟩

end Rules

/-! ## What both parties do -/

/-- The slot is gone, and was not removed by the other party. -/
def Party.Cleared (party : Party) (s : Exchange) : Prop :=
  s.slot = .absent ∧ s.removed = match party with
    | .holder => false
    | .root => true

section Both

variable {uid : UInt32} {serves : Serves uid} {q : Pin} {env : Env} {party : Party}
  {ends : Outcome → Trade → Prop} {φ : Exchange → Prop} {z : Trade × Trade} {s : Exchange}
  {ε α : Type}

theorem Party.Step.still : party.Step q.auth s s := by
  cases party with
  | holder => exact HolderStep.still
  | root => exact RootStep.still

theorem Party.Step.filled {a : Auth} (c : PinCounters) (was : s.slot = .unwritten a) :
    party.Step q.auth s { s with slot := .written a c } := by
  cases party with
  | holder => exact HolderStep.filled a c was
  | root => exact RootStep.filled a c was

theorem Party.Step.tagged {tag : TagState} (becomes : s.tag.Becomes PIN_VERSION_CURRENT tag) :
    party.Step q.auth s { s with tag } := by
  cases party with
  | holder => exact HolderStep.tagged tag becomes
  | root => exact RootStep.tagged tag becomes

theorem Party.Cleared.untagged (cleared : party.Cleared s) :
    party.Step q.auth s { s with tag := .absent } := by
  cases party with
  | holder => exact HolderStep.untagged cleared.1 cleared.2
  | root => exact RootStep.untagged cleared.2

theorem Party.stable_any : party.Stable q.auth fun _ => True := fun _ _ _ _ _ => trivial

/-- Nobody makes a slot but the party that has cleared it. -/
theorem Party.stable_cleared : party.Stable q.auth party.Cleared := by
  rintro x y - ⟨gone, mark⟩ step
  cases party with
  | holder =>
    cases step with
    | deleted there => exact absurd gone there
    | defined _ after =>
      rw [mark] at after
      cases after
    | filled a c was =>
      rw [gone] at was
      cases was
    | _ => exact ⟨gone, mark⟩
  | root =>
    cases step with
    | compared a =>
      refine ⟨?_, mark⟩
      show x.slot.compared a = .absent
      rw [gone]
      rfl
    | deleted => exact ⟨rfl, mark⟩
    | defined a _ before =>
      rw [mark] at before
      cases before
    | filled a c was =>
      rw [gone] at was
      cases was
    | _ => exact ⟨gone, mark⟩

theorem mark_other {t : Tpm} {c : NvCmd} {removed : Bool}
    (other : c.index ≠ some (slotHandle uid serves)) :
    party.mark serves t c removed = removed := by
  cases party with
  | holder => rfl
  | root =>
    cases c with
    | nvUndefineSpace i =>
      have ne : i ≠ slotHandle uid serves := fun same => other (congrArg some same)
      simp only [Party.mark, Tpm.removes, ne, decide_false, Bool.false_and, Bool.or_false]
    | _ => exact Bool.or_false removed

theorem mark_tag {t : Tpm} {c : NvCmd} {removed : Bool}
    (named : c.index = some (tagHandle uid serves)) :
    party.mark serves t c removed = removed := by
  apply mark_other
  rw [named]
  exact fun same => slotHandle_ne_tagHandle (Option.some.inj same).symm

/-- The tag is written if it is there. -/
theorem brings_writePinVersionTagExisting : Brings serves q env party ends (fun _ => True)
    (writePinVersionTagExisting (tagHandle uid serves) PIN_VERSION_CURRENT) fun _ => True := by
  refine gives_mapErr
    (brings_session (gives_bind (brings_quiet (onlyX_op trivial)) (fun _ _ => ?_) fun _ _ => trivial))
  apply brings_tpm
  intro s t r t' _ _ shows_ run _
  rw [mark_tag rfl]
  refine ⟨trivial, ?_⟩
  by_cases absent : s.tag = .absent
  · obtain ⟨-, shows'⟩ := shows_.move (exec_nvWrite_tag_absent absent) run
    exact ⟨s, shows', rfl, .still, trivial⟩
  · obtain ⟨-, shows'⟩ := shows_.move (exec_nvWrite_tag absent) run
    exact ⟨{ s with tag := .version PIN_VERSION_CURRENT }, shows', rfl, .tagged .written, trivial⟩

theorem brings_definePinVersionTag : Brings serves q env party ends (fun _ => True)
    (definePinVersionTag (tagHandle uid serves)) fun _ => True := by
  refine gives_mapErr (brings_session ?_)
  apply brings_tpm
  intro s t r t' _ _ shows_ run _
  rw [mark_tag rfl]
  refine ⟨trivial, ?_⟩
  by_cases absent : s.tag = .absent
  · obtain ⟨-, shows'⟩ := shows_.move (exec_nvDefineSpace_tag absent) run
    exact ⟨{ s with tag := .unwritten }, shows', rfl, .tagged (.defined absent), trivial⟩
  · obtain ⟨-, shows'⟩ := shows_.move (exec_nvDefineSpace_tag_present absent) run
    exact ⟨s, shows', rfl, .still, trivial⟩

theorem brings_writePinVersionTag :
    Brings serves q env party ends (fun _ => True) (writePinVersionTag uid PIN_VERSION_CURRENT)
      fun _ => True := by
  unfold writePinVersionTag
  rw [versionNvIndexForUid_eq serves, ofResult_ok_bind]
  apply gives_attempt_bind brings_writePinVersionTagExisting
  intro r _
  split
  · exact gives_pure trivial
  · exact gives_bind brings_definePinVersionTag (fun _ _ => brings_writePinVersionTagExisting)
      fun _ _ => trivial
  · exact gives_throw trivial

/-- The tag goes while the slot is gone. -/
theorem brings_deletePinVersionTag :
    Brings serves q env party ends party.Cleared (deletePinVersionTag uid) fun _ => True := by
  have undefine :
      Brings serves q env party ends party.Cleared (tpm (.nvUndefineSpace (tagHandle uid serves)))
      fun _ => True := by
    apply brings_tpm
    intro s t r t' _ cleared shows_ run _
    rw [mark_tag rfl]
    refine ⟨trivial, ?_⟩
    by_cases absent : s.tag = .absent
    · obtain ⟨-, shows'⟩ := shows_.move (exec_nvUndefineSpace_tag_absent absent) run
      exact ⟨s, shows', rfl, .still, cleared⟩
    · obtain ⟨-, shows'⟩ := shows_.move (exec_nvUndefineSpace_tag absent) run
      exact ⟨{ s with tag := .absent }, shows', rfl, cleared.untagged, cleared⟩
  unfold deletePinVersionTag
  rw [versionNvIndexForUid_eq serves, ofResult_ok_bind]
  refine gives_attempt_bind
    (brings_session (gives_bind (brings_quiet (onlyX_op trivial)) (fun _ _ => undefine)
      fun _ _ => trivial)) fun r _ => ?_
  split
  · exact gives_pure trivial
  · exact gives_pure trivial
  · exact gives_pure trivial
  · exact gives_throw trivial

/-- The slot that a party removes is one it may remove. -/
theorem trades_undefine (stable : party.Stable q.auth φ)
    (guar : (party.contract serves q env ends).guar z.1 z.2) (knows : z.2.Knows serves q φ) :
    Trades serves q env party ends (tpm (.nvUndefineSpace (slotHandle uid serves)))
      (fun r z => z.2.Knows serves q (fun _ => True) ∧ (r = .ok () → z.2.Knows serves q party.Cleared) ∧
        ∀ e, r = .error e → e = .tss2 (some .handle)) z := by
  apply trades_tpm stable guar knows
  intro s t r t' fair _ shows_ run tramples
  by_cases absent : s.slot = .absent
  · obtain ⟨rfl, shows'⟩ := shows_.move (exec_nvUndefineSpace_slot_absent absent) run
    have unmarked :
        party.mark serves t (.nvUndefineSpace (slotHandle uid serves)) s.removed = s.removed := by
      cases party with
      | holder => rfl
      | root =>
        have gone : t.nv (slotHandle uid serves) = none := by
          rw [shows_.1, absent]
          rfl
        simp only [Party.mark, Tpm.removes, gone, Option.isSome_none, Bool.and_false, Bool.or_false]
    refine ⟨s, shows', unmarked.symm, .still, fun z _ knows => ⟨?_, by simp [refuse], ?_⟩⟩
    · obtain ⟨s', fair', is_, -⟩ := knows
      exact ⟨s', fair', is_, trivial⟩
    · rintro _ ⟨⟩
      rfl
  · obtain ⟨rfl, shows'⟩ := shows_.move (exec_nvUndefineSpace_slot absent) run
    have there : ∃ x, t.nv (slotHandle uid serves) = some x := by
      rw [shows_.1]
      cases slot : s.slot with
      | absent => exact absurd slot absent
      | unwritten a => exact ⟨_, rfl⟩
      | written a c => exact ⟨_, rfl⟩
    have after : ∃ s' : Exchange,
        s' = ⟨.absent, s.tag,
          party.mark serves t (.nvUndefineSpace (slotHandle uid serves)) s.removed⟩ ∧
        party.Step q.auth s s' ∧ party.Cleared s' := by
      refine ⟨_, rfl, ?_⟩
      cases party with
      | holder =>
        have other : ¬ s.slot.Holds q.auth := by
          intro holds
          refine tramples rfl ⟨rfl, ?_⟩
          rw [shows_.1]
          cases slot : s.slot with
          | absent => exact absurd slot absent
          | unwritten a =>
            rw [slot] at holds
            cases holds
            exact ⟨none, rfl⟩
          | written a c =>
            rw [slot] at holds
            cases holds
            exact ⟨some c, rfl⟩
        have before : s.removed = false := by
          cases mark : s.removed with
          | false => rfl
          | true => exact ((fair mark).elim absent other).elim
        exact ⟨HolderStep.deleted other, rfl, before⟩
      | root =>
        obtain ⟨x, there⟩ := there
        have marked : Party.mark serves .root t (.nvUndefineSpace (slotHandle uid serves))
            s.removed = true := by
          simp only [Party.mark, Tpm.removes, there, Option.isSome_some, decide_true,
            Bool.and_true, Bool.or_true]
        rw [marked]
        exact ⟨RootStep.deleted absent, rfl, rfl⟩
    obtain ⟨s', rfl, step, cleared⟩ := after
    refine ⟨_, shows', rfl, step, fun z _ knows => ?_⟩
    obtain ⟨s', fair', is_, rfl⟩ := knows
    exact ⟨⟨_, fair', is_, trivial⟩, fun _ => ⟨_, fair', is_, cleared⟩, by simp⟩

/-- After a success the party knows `ψ`. -/
def Won (ψ : Exchange → Prop) (r : Except ε α) (s : Exchange) : Prop := ∀ a, r = .ok a → ψ s

theorem Party.stable_won {ψ : Exchange → Prop} {r : Except ε α} (stable : party.Stable q.auth ψ) :
    party.Stable q.auth (Won ψ r) := fun x y fair won step a ok => stable x y fair (won a ok) step

theorem Trade.Knows.lost {ψ : Exchange → Prop} {e : ε} {x : Trade} (knows : x.Knows serves q φ) :
    x.Knows serves q (Won ψ (.error e : Except ε α)) := by
  obtain ⟨s, fair, is_, -⟩ := knows
  exact ⟨s, fair, is_, nofun⟩

theorem Trade.Knows.any {x : Trade} (knows : x.Knows serves q φ) : x.Knows serves q fun _ => True := by
  obtain ⟨s, fair, is_, -⟩ := knows
  exact ⟨s, fair, is_, trivial⟩

/-- A deletion that succeeds leaves the slot cleared by its party. -/
theorem trades_deletePinAdmin (stable : party.Stable q.auth φ)
    (guar : (party.contract serves q env ends).guar z.1 z.2) (knows : z.2.Knows serves q φ) :
    Trades serves q env party ends (deletePinAdmin uid)
      (fun r z => z.2.Knows serves q (Won party.Cleared r)) z := by
  have undefined : Trades serves q env party ends (executeWithNullauthSession do
      let _ ← tpm (.nvReadPublic (slotHandle uid serves))
      tpm (.nvUndefineSpace (slotHandle uid serves)))
        (fun r z => z.2.Knows serves q (Won party.Cleared r)) z := by
    refine trades_session stable (fun r => Party.stable_won Party.stable_cleared) guar knows
      fun z guar knows => ?_
    refine trades_then stable (brings_quiet (onlyX_op trivial)) guar knows (fun _ z _ guar knows => ?_)
      fun e z _ knows => knows.lost
    refine wpx_mono (trades_undefine stable guar knows) ?_
    rintro (e | _) z _ ⟨knows, won, -⟩
    · exact knows.lost
    · obtain ⟨s, fair, is_, cleared⟩ := won rfl
      exact ⟨s, fair, is_, fun _ _ => cleared⟩
  unfold deletePinAdmin
  rw [nvIndexForUid_eq serves, ofResult_ok_bind]
  refine wpx_bind.2 (wpx_attempt.2 (wpx_mono undefined fun r z guar knows => ?_))
  cases r with
  | error e =>
    have thrown : ∀ e : PinError, Trades serves q env party ends (throw e : PinM Unit)
        (fun r z => z.2.Knows serves q (Won party.Cleared r)) z := fun e => ⟨guar, knows.lost⟩
    dsimp only
    split
    · cases ‹Except.error e = .ok _›
    · exact thrown _
    · exact thrown _
    · exact thrown _
  | ok _ =>
    have cleared : z.2.Knows serves q party.Cleared := by
      obtain ⟨s, fair, is_, won⟩ := knows
      exact ⟨s, fair, is_, won () rfl⟩
    have untag : Brings serves q env party ends party.Cleared
        (attempt (deletePinVersionTag uid) : PinM (PinResult Unit)) fun r => ∃ r', r = .ok r' :=
      gives_attempt (brings_deletePinVersionTag.mono fun r _ => ⟨r, rfl⟩)
    refine trades_then Party.stable_cleared untag guar cleared (fun _ z _ guar knows => ⟨guar, ?_⟩) ?_
    · obtain ⟨s, fair, is_, cleared⟩ := knows
      exact ⟨s, fair, is_, fun _ _ => cleared⟩
    · rintro e z ⟨_, ⟨⟩⟩

theorem Trade.Knows.won {ψ : Exchange → Prop} {a : α} {x : Trade}
    (knows : x.Knows serves q (Won ψ (.ok a : Except ε α))) :
    x.Knows serves q ψ := by
  obtain ⟨s, fair, is_, won⟩ := knows
  exact ⟨s, fair, is_, won a rfl⟩

theorem Trade.Knows.wins {ψ : Exchange → Prop} {r : Except ε α} {x : Trade}
    (knows : x.Knows serves q ψ) :
    x.Knows serves q (Won ψ r) := by
  obtain ⟨s, fair, is_, one⟩ := knows
  exact ⟨s, fair, is_, fun _ _ => one⟩

theorem Trade.Knows.imp {ψ : Exchange → Prop} {x : Trade} (knows : x.Knows serves q φ)
    (imp : ∀ s, φ s → ψ s) :
    x.Knows serves q ψ := by
  obtain ⟨s, fair, is_, one⟩ := knows
  exact ⟨s, fair, is_, imp s one⟩

theorem trades_ofTss {f : TssM α} {ψ : Exchange → Prop}
    (body : Trades serves q env party ends f (fun r z => z.2.Knows serves q (Won ψ r)) z) :
    Trades serves q env party ends (ofTss f) (fun r z => z.2.Knows serves q (Won ψ r)) z := by
  refine wpx_mapErr.2 (wpx_mono body ?_)
  rintro (e | a) z _ knows
  · exact knows.lost
  · exact knows.won.wins

/-! ## Making a slot -/

theorem brings_definePinSlotArea :
    Brings serves q env party ends φ (definePinSlotArea (slotHandle uid serves))
    fun r => r = .ok (slotPublic (slotHandle uid serves) slotPolicy) := by
  refine gives_mapErr ?_
  refine gives_bind (@brings_asks _ _ _ _ _ _ _ (.startAuthSession .trial) (· = .ok .fresh) trivial
    fun _ _ _ _ _ => rfl) ?_ nofun
  rintro _ ⟨⟩
  refine gives_bind (@brings_asks _ _ _ _ _ _ _ (.policyCommandCode .fresh .nvWrite)
    (· = .ok ⟨[.commandCode .nvWrite]⟩) trivial
    fun _ _ _ _ _ => rfl) ?_ nofun
  rintro _ ⟨⟩
  refine gives_bind (@brings_asks _ _ _ _ _ _ _ (.policyNvWritten ⟨[.commandCode .nvWrite]⟩ false)
    (· = .ok ⟨slotPolicy⟩) trivial
    fun _ _ _ _ _ => rfl) ?_ nofun
  rintro _ ⟨⟩
  refine gives_bind (@brings_asks _ _ _ _ _ _ _ (.policyGetDigest ⟨slotPolicy⟩)
    (· = .ok slotPolicy) trivial
    fun _ _ _ _ _ => rfl) ?_ nofun
  rintro _ ⟨⟩
  refine gives_bind (@brings_asks _ _ _ _ _ _ _ .flushContext (· = .ok ()) trivial
    fun _ _ _ _ _ => rfl) ?_ nofun
  intro _ _
  exact gives_pure rfl

/-- The write of a slot that succeeds fills one that is there and was not written. -/
theorem trades_definePinSlotWrite {ψ : Exchange → Prop} {m : PinManager}
    (stable : party.Stable q.auth φ)
    (fills : ∀ s a, φ s → s.slot = .unwritten a →
      ψ { s with slot := .written a ⟨0, m.policy.maxAttempts⟩ })
    (guar : (party.contract serves q env ends).guar z.1 z.2) (knows : z.2.Knows serves q φ) :
    Trades serves q env party ends (definePinSlotWrite m (slotHandle uid serves))
      (fun r z => z.2.Knows serves q (Won ψ r)) z := by
  refine trades_ofTss ?_
  refine trades_then stable (@brings_asks _ _ _ _ _ _ _ (.startAuthSession .policy) (· = .ok .fresh)
    trivial fun _ _ _ _ _ => rfl)
    guar knows ?_ fun e z no => nomatch no
  rintro _ z ⟨⟩ guar knows
  refine trades_then stable (@brings_asks _ _ _ _ _ _ _ (.policyCommandCode .fresh .nvWrite)
    (· = .ok ⟨[.commandCode .nvWrite]⟩)
    trivial fun _ _ _ _ _ => rfl) guar knows ?_ fun e z no => nomatch no
  rintro _ z ⟨⟩ guar knows
  refine trades_then stable
    (@brings_asks _ _ _ _ _ _ _ (.policyNvWritten ⟨[.commandCode .nvWrite]⟩ false)
      (· = .ok ⟨slotPolicy⟩) trivial fun _ _ _ _ _ => rfl) guar knows ?_ fun e z no => nomatch no
  rintro _ z ⟨⟩ guar knows
  refine trades_then stable (brings_quiet (onlyX_op trivial)) guar knows (fun _ z _ guar knows => ?_)
    fun e z _ knows => knows.lost
  apply trades_tpm stable guar knows
  intro s t r t' _ one shows_ run _
  have unmarked : party.mark serves t (.nvWrite (.policy ⟨slotPolicy⟩) (slotHandle uid serves)
      (PinData.toBytes ⟨0, m.policy.maxAttempts.toInt32⟩) 0) s.removed = s.removed := by
    cases party with
    | holder => rfl
    | root => exact Bool.or_false s.removed
  rw [unmarked]
  by_cases fresh : ∃ a, s.slot = .unwritten a
  · obtain ⟨a, fresh⟩ := fresh
    obtain ⟨rfl, shows'⟩ := shows_.move (exec_nvWrite_slot m.policy.maxAttempts fresh) run
    refine ⟨{ s with slot := .written a ⟨0, m.policy.maxAttempts⟩ }, shows', rfl, .filled _ fresh,
      fun z _ knows => ?_⟩
    exact knows.imp fun s' same a _ => same ▸ fills s _ one fresh
  · obtain ⟨kind, refused⟩ := @exec_nvWrite_slot_refused uid t serves ⟨s.slot, s.tag⟩
      (PinData.toBytes ⟨0, m.policy.maxAttempts.toInt32⟩) fun a same => fresh ⟨a, same⟩
    obtain ⟨rfl, shows'⟩ := shows_.move refused run
    exact ⟨s, shows', rfl, .still, fun z _ knows => knows.lost⟩

/-- The definition of the slot by the party that has cleared it. -/
theorem trades_defineSlot {a : Auth} (own : party = .root → a = q.auth)
    (defines : ∀ s, party.Cleared s → φ { s with slot := .unwritten a })
    (guar : (party.contract serves q env ends).guar z.1 z.2)
    (knows : z.2.Knows serves q party.Cleared) :
    Trades serves q env party ends
      (tpm (.nvDefineSpace a (slotPublic (slotHandle uid serves) slotPolicy)))
      (fun r z => z.2.Knows serves q (Won φ r)) z := by
  apply trades_tpm Party.stable_cleared guar knows
  intro s t r t' _ cleared shows_ run _
  have unmarked :
      party.mark serves t (.nvDefineSpace a (slotPublic (slotHandle uid serves) slotPolicy))
      s.removed = s.removed := by
    cases party with
    | holder => rfl
    | root => exact Bool.or_false s.removed
  rw [unmarked]
  by_cases fits : a.bytes.length ≤ authValueMax
  · obtain ⟨rfl, shows'⟩ := shows_.move (exec_nvDefineSpace_slot cleared.1 fits) run
    have step : party.Step q.auth s { s with slot := .unwritten a } := by
      cases party with
      | holder => exact HolderStep.defined a cleared.1 cleared.2
      | root =>
        rw [own rfl]
        exact RootStep.defined cleared.1 cleared.2
    exact ⟨{ s with slot := .unwritten a }, shows', rfl, step,
      fun z _ knows => knows.imp fun s' same _ _ => same ▸ defines s cleared⟩
  · obtain ⟨rfl, shows'⟩ := shows_.move (exec_nvDefineSpace_slot_size cleared.1 (Nat.not_le.1 fits)) run
    exact ⟨s, shows', rfl, .still, fun z _ knows => knows.lost⟩

theorem trades_definePinSlot {m : PinManager} {bytes : Bytes} {ψ : Exchange → Prop}
    (stable : party.Stable q.auth φ) (own : party = .root → Auth.ofBytes bytes = q.auth)
    (defines : ∀ s, party.Cleared s → φ { s with slot := .unwritten (.ofBytes bytes) })
    (fills : bytes.length ≤ authMaxSize → ∀ s a, φ s → s.slot = .unwritten a →
      ψ { s with slot := .written a ⟨0, m.policy.maxAttempts⟩ })
    (guar : (party.contract serves q env ends).guar z.1 z.2)
    (knows : z.2.Knows serves q party.Cleared) :
    Trades serves q env party ends (m.definePinSlot (slotHandle uid serves) bytes)
      (fun r z => z.2.Knows serves q (Won ψ r)) z := by
  unfold PinManager.definePinSlot
  by_cases short : bytes.length ≤ authMaxSize
  · rw [Auth.tryFrom, if_pos short]
    refine wpx_bind.2 (wpx_mapErr.2 ⟨guar, ?_⟩)
    refine trades_then Party.stable_cleared brings_definePinSlotArea guar knows ?_ fun e z no => by
      cases no
    rintro _ z ⟨⟩ guar knows
    have defined : Trades serves q env party ends (ofTss (executeWithNullauthSession
        (tpm (.nvDefineSpace (.ofBytes bytes) (slotPublic (slotHandle uid serves) slotPolicy)))))
        (fun r z => z.2.Knows serves q (Won φ r)) z :=
      trades_ofTss (trades_session Party.stable_cleared (fun r => Party.stable_won stable) guar knows
        fun z guar knows =>
        trades_defineSlot own defines guar knows)
    refine wpx_bind.2 (wpx_mono defined ?_)
    rintro (e | _) z guar knows
    · exact ⟨guar, knows.lost⟩
    · exact trades_definePinSlotWrite stable (fills short) guar knows.won
  · rw [Auth.tryFrom, if_neg short]
    exact ⟨guar, knows.lost⟩

/-- The slot reads as absent to the party that has cleared it. -/
theorem brings_readPinSlotOwner :
    Brings serves q env party ends party.Cleared (readPinSlotOwner (slotHandle uid serves)) fun r =>
      r = .ok none := by
  have missing :
      Brings serves q env party ends party.Cleared (tpm (.nvReadPublic (slotHandle uid serves)))
      fun r => r = refuse .handle := by
    refine @brings_asks _ _ _ _ _ _ _ (.nvReadPublic (slotHandle uid serves)) _ trivial
      fun s t _ cleared shows_ => ?_
    have gone : t.nv (slotHandle uid serves) = none := by
      rw [shows_.1, cleared.1]
      rfl
    simp only [Tpm.exec, gone]
  unfold readPinSlotOwner readFull
  rw [bind_assoc]
  refine gives_attempt_bind (brings_session (Φ := fun r => r = refuse .handle) ?_) ?_
  · refine gives_bind missing (by rintro a ⟨⟩) ?_
    rintro e ⟨⟩
    rfl
  · rintro _ ⟨⟩
    exact gives_pure rfl

/-- A setup by the party that has cleared the slot. -/
theorem trades_setupPin {m : PinManager} {pin : Pin} {ψ ψ' : Exchange → Prop}
    (stable : party.Stable q.auth φ) (stable' : party.Stable q.auth ψ)
    (own : party = .root → pin.auth = q.auth)
    (defines : ∀ s, party.Cleared s → φ { s with slot := .unwritten pin.auth })
    (fills : (asBytes pin.str).length ≤ authMaxSize → ∀ s a, φ s → s.slot = .unwritten a →
      ψ { s with slot := .written a ⟨0, m.policy.maxAttempts⟩ })
    (tagged : ∀ z : Trade × Trade, (party.contract serves q env ends).guar z.1 z.2 →
      z.2.Knows serves q ψ →
      Trades serves q env party ends (writePinVersionTag uid PIN_VERSION_CURRENT)
        (fun r z => z.2.Knows serves q (Won ψ' r)) z)
    (guar : (party.contract serves q env ends).guar z.1 z.2)
    (knows : z.2.Knows serves q party.Cleared) :
    Trades serves q env party ends (m.setupPin uid pin)
      (fun r z => z.2.Knows serves q (Won ψ' r)) z := by
  have restart :
      ∀ {φ : Exchange → Prop}, Brings serves q env party ends φ m.restartContext fun _ => True :=
    brings_quiet (onlyX_mapErr (onlyX_op trivial))
  unfold PinManager.setupPin
  rw [nvIndexForUid_eq serves, ofResult_ok_bind]
  refine trades_then Party.stable_cleared brings_readPinSlotOwner guar knows ?_ fun e z no => nomatch no
  rintro _ z ⟨⟩ guar knows
  rw [if_neg nofun]
  refine wpx_bind.2 (wpx_mono (trades_definePinSlot stable own defines fills guar knows) ?_)
  rintro (e | _) z guar knows
  · exact ⟨guar, knows.lost⟩
  refine trades_then stable' restart guar knows.won (fun _ z _ guar knows => ?_)
    fun e z _ knows => knows.lost
  refine wpx_bind.2 (wpx_attempt.2 (wpx_mono (tagged z guar knows) ?_))
  rintro (e | _) z guar knows
  · -- the rollback: whatever it does, the setup throws
    refine trades_then Party.stable_any restart guar knows.any (fun _ z _ guar knows => ?_)
      fun e z _ knows => knows.lost
    refine wpx_bind.2 (wpx_attempt.2 (wpx_mono (trades_deletePinAdmin Party.stable_any guar knows) ?_))
    rintro (e | _) z guar knows
    · exact ⟨guar, knows.lost⟩
    · exact ⟨guar, knows.lost⟩
  · exact ⟨guar, knows⟩

end Both

/-! ## The holder -/

section Holder

variable {uid : UInt32} {serves : Serves uid} {q : Pin} {env : Env} {ends : Outcome → Trade → Prop}
  {φ : Exchange → Prop} {z : Trade × Trade} {s : Exchange} {p : Pin} {m : PinManager}

/-- A comparison by the holder spares the new slot. -/
theorem brings_compare {a : Auth} : Brings serves q env .holder ends (fun _ => True)
    (tpm (.nvRead (.index a) (slotHandle uid serves) PinData.SIZE 0)) fun _ => True := by
  apply brings_tpm
  intro s t r t' _ _ shows_ run tramples
  obtain ⟨-, shows'⟩ := shows_.move exec_nvRead_slot_index run
  refine ⟨trivial, { s with slot := s.slot.compared a }, shows', rfl, HolderStep.compared a ?_, trivial⟩
  intro c written unlocked other locked
  refine tramples rfl ⟨rfl, other, c, ?_, unlocked, locked⟩
  rw [shows_.1, written]
  rfl

theorem brings_verifyPinExact {bytes : Bytes} :
    Brings serves q env .holder ends (fun _ => True) (verifyPinExact uid bytes) fun _ => True := by
  have compared : Brings serves q env .holder ends (fun _ => True)
      (do
        let auth ← ofResult (Auth.tryFrom bytes)
        tpm (.nvRead (.index auth) (slotHandle uid serves) PinData.SIZE 0)) fun _ => True := by
    unfold Auth.tryFrom
    split
    · exact brings_compare
    · exact gives_throw trivial
  unfold verifyPinExact
  rw [nvIndexForUid_eq serves, ofResult_ok_bind]
  refine gives_bind (brings_quiet (onlyX_mapErr (onlyX_op trivial))) (fun _ _ => ?_) fun _ _ => trivial
  apply gives_attempt_bind (brings_session compared)
  intro data _
  have invalid :
      ∀ f : Except PinError (Option PinData) → Bool, Brings serves q env .holder ends (fun _ => True)
        (do
          let slot ← attempt (readPinSlotOwner (slotHandle uid serves))
          pure (.invalid (f slot)) : PinM VerificationResult) fun _ => True :=
    fun _ => gives_attempt_bind (brings_quiet readPinSlotOwner_quiet) fun _ _ => gives_pure trivial
  dsimp only
  split
  · exact gives_pure trivial
  · exact invalid _
  · exact invalid _
  · exact gives_throw trivial
  · exact gives_throw trivial
  · exact gives_throw trivial

/-- The judgement of a part of the holder that is only to go on. -/
abbrev Goes {ε α : Type} (serves : Serves uid) (q : Pin) (env : Env) (ends : Outcome → Trade → Prop)
    (y : Fallible NvCmd ε α) (z : Trade × Trade) : Prop :=
  Trades serves q env .holder ends y (fun _ z => z.2.Knows serves q fun _ => True) z

theorem goes_setupPin (guar : (Party.holder.contract serves q env ends).guar z.1 z.2)
    (knows : z.2.Knows serves q Party.holder.Cleared) :
    Goes serves q env ends (m.setupPin uid p) z := by
  have tagged : ∀ z : Trade × Trade, (Party.holder.contract serves q env ends).guar z.1 z.2 →
      z.2.Knows serves q (fun _ => True) →
        Trades serves q env .holder ends (writePinVersionTag uid PIN_VERSION_CURRENT)
          (fun r z => z.2.Knows serves q (Won (fun _ => True) r)) z :=
    fun z guar knows =>
      wpx_mono (trades_brings Party.stable_any brings_writePinVersionTag guar knows)
        fun _ _ _ post => post.1.wins
  refine wpx_mono (trades_setupPin Party.stable_any Party.stable_any nofun (fun _ _ => trivial)
    (fun _ _ _ _ _ => trivial) tagged guar knows) fun _ _ _ knows => knows.any

theorem goes_migrate (guar : (Party.holder.contract serves q env ends).guar z.1 z.2)
    (knows : z.2.Knows serves q fun _ => True) :
    Goes serves q env ends (m.migrateLegacyPinFormat uid p) z := by
  have restart :
      ∀ {φ : Exchange → Prop}, Brings serves q env .holder ends φ m.restartContext fun _ => True :=
    brings_quiet (onlyX_mapErr (onlyX_op trivial))
  unfold PinManager.migrateLegacyPinFormat
  split
  · exact wpx_mono (trades_brings Party.stable_any brings_writePinVersionTag guar knows)
      fun _ _ _ post => post.1
  · refine wpx_bind.2 (wpx_mono (trades_deletePinAdmin Party.stable_any guar knows) ?_)
    rintro (e | _) z guar knows
    · exact ⟨guar, knows.any⟩
    refine trades_then Party.stable_cleared restart guar knows.won (fun _ z _ guar knows => ?_)
      fun e z _ knows => knows.any
    refine wpx_bind.2 (wpx_mono (goes_setupPin guar knows) ?_)
    rintro (e | _) z guar knows
    · exact ⟨guar, knows⟩
    exact wpx_mono (trades_brings Party.stable_any restart guar knows) fun _ _ _ post => post.1

theorem goes_verifyPin (guar : (Party.holder.contract serves q env ends).guar z.1 z.2)
    (knows : z.2.Knows serves q fun _ => True) : Goes serves q env ends (m.verifyPin uid p) z := by
  have restart : Brings serves q env .holder ends (fun _ => True) m.restartContext fun _ => True :=
    brings_quiet (onlyX_mapErr (onlyX_op trivial))
  unfold PinManager.verifyPin
  refine trades_then Party.stable_any (brings_quiet readPinVersionTag_quiet) guar knows
    (fun version z _ guar knows => ?_)
    fun _ _ _ knows => knows
  cases version with
  | some version =>
    dsimp only
    split
    · exact ⟨guar, knows⟩
    · exact wpx_mono (trades_brings Party.stable_any brings_verifyPinExact guar knows)
        fun _ _ _ post => post.1
  | none =>
    refine trades_then Party.stable_any brings_verifyPinExact guar knows (fun r z _ guar knows => ?_)
      fun _ _ _ knows => knows
    cases r with
    | success slot =>
      refine trades_then Party.stable_any restart guar knows (fun _ z _ guar knows => ?_)
        fun _ _ _ knows => knows
      refine wpx_bind.2 (wpx_attempt.2 (wpx_mono (goes_migrate guar knows) fun _ z guar knows => ?_))
      exact trades_then Party.stable_any restart guar knows (fun _ z _ guar knows => ⟨guar, knows⟩)
        fun _ _ _ knows => knows
    | invalid locked => exact ⟨guar, knows⟩
    | lockedOut => exact ⟨guar, knows⟩

theorem goes_deletePinWithAuth (guar : (Party.holder.contract serves q env ends).guar z.1 z.2)
    (knows : z.2.Knows serves q fun _ => True) :
    Goes serves q env ends (m.deletePinWithAuth uid p) z := by
  unfold PinManager.deletePinWithAuth
  refine wpx_bind.2 (wpx_mono (goes_verifyPin guar knows) ?_)
  rintro (e | r) z guar knows
  · exact ⟨guar, knows⟩
  cases r with
  | success slot =>
    refine wpx_bind.2 (wpx_mono (trades_deletePinAdmin Party.stable_any guar knows) ?_)
    rintro (e | _) z guar knows
    · exact ⟨guar, knows.any⟩
    · exact ⟨guar, knows.any⟩
  | invalid locked => exact ⟨guar, knows⟩
  | lockedOut => exact ⟨guar, knows⟩

end Holder

end Pinpam
