import Pinpam.Util.Exchange
import Pinpam.Util.Reports

/-!
# Replacing a PIN

Root changes the PIN of a user while a process verifies the old one, or deletes with it.
As long as that process does not remove the new slot or use up its last attempt, the
change that returned `Ok` is in force.
-/

namespace Pinpam
set_option autoImplicit false
open Pinpam.Effect Pinpam.Effect.Fallible

section Root

variable {uid : UInt32} {serves : Serves uid} {q : Pin} {env : Env} {ends : Outcome → Trade → Prop}
  {φ : Exchange → Prop} {z : Trade × Trade} {limit : UInt32} {T : TagState → Prop}

/-- Root has made the new slot. -/
def Placed (q : Pin) (s : Exchange) : Prop := s.removed = true ∧ s.slot.Holds q.auth

/-- The new slot is written and unlocked, and the tag is one of `T`. -/
structure Renewed (q : Pin) (limit : UInt32) (T : TagState → Prop) (s : Exchange) : Prop where
  removed : s.removed = true
  slot : ∃ c, s.slot = .written q.auth c ∧ ¬ c.locked ∧ c.pinLimit = limit
  tag : T s.tag
  short : (asBytes q.str).length ≤ authMaxSize

theorem stable_placed : Party.root.Stable q.auth (Placed q) := by
  rintro x y - ⟨removed, holds⟩ step
  cases step with
  | still => exact ⟨removed, holds⟩
  | compared a => exact ⟨removed, holds.compared⟩
  | deleted other => exact absurd holds other
  | untagged gone => exact ⟨removed, holds⟩
  | defined a gone before =>
    rw [removed] at before
    cases before
  | filled a c was =>
    rw [was] at holds
    cases holds
    exact ⟨removed, .written c⟩
  | tagged => exact ⟨removed, holds⟩

theorem after_hit_unlocked {c : PinCounters} (unlocked : ¬ c.locked) : ¬ (c.after true).locked := by
  intro locked
  have positive := PinCounters.limit_pos unlocked
  have zero := UInt32.le_iff_toNat_le.1 locked
  have limit : (c.after true).pinLimit.toNat = c.pinLimit.toNat := rfl
  have count : (c.after true).pinCount.toNat = 0 := rfl
  omega

theorem stable_renewed (closed : TagState.Closed T) : Party.root.Stable q.auth (Renewed q limit T) := by
  rintro x y - ⟨removed, ⟨c, slot, unlocked, same⟩, tag, short⟩ step
  cases step with
  | still => exact ⟨removed, ⟨c, slot, unlocked, same⟩, tag, short⟩
  | compared a spares =>
    refine ⟨removed, ?_, tag, short⟩
    show ∃ c, x.slot.compared a = _ ∧ _
    rw [slot]
    by_cases hit : a = q.auth
    · subst hit
      exact ⟨c.after true, compared_hit unlocked, after_hit_unlocked unlocked, same⟩
    · exact ⟨c.after false, compared_miss unlocked hit, spares c slot unlocked hit, same⟩
  | deleted other =>
    rw [slot] at other
    exact absurd (.written c) other
  | untagged gone =>
    rw [slot] at gone
    cases gone
  | defined a gone =>
    rw [slot] at gone
    cases gone
  | filled a c' was =>
    rw [slot] at was
    cases was
  | tagged tag' becomes => exact ⟨removed, ⟨c, slot, unlocked, same⟩, closed _ _ tag becomes, short⟩

/-- A write of the tag under the new slot, whether it succeeds or not. -/
def TagTried {ε α : Type} (q : Pin) (limit : UInt32) (r : Except ε α) (s : Exchange) : Prop :=
  Renewed q limit (fun _ => True) s ∧ Won (Renewed q limit (· = .version PIN_VERSION_CURRENT)) r s

theorem stable_tried {ε α : Type} {r : Except ε α} : Party.root.Stable q.auth (TagTried q limit r) :=
  fun x y fair tried step => ⟨stable_renewed TagState.closed_any x y fair tried.1 step,
    Party.stable_won (stable_renewed TagState.closed_current) x y fair tried.2 step⟩

theorem trades_writeTag (guar : (Party.root.contract serves q env ends).guar z.1 z.2)
    (knows : z.2.Knows serves q (Renewed q limit fun _ => True)) :
    Trades serves q env .root ends
      (writePinVersionTagExisting (tagHandle uid serves) PIN_VERSION_CURRENT)
      (fun r z => z.2.Knows serves q (TagTried q limit r)) z := by
  have stable := @stable_renewed q limit (fun _ => True) TagState.closed_any
  have tried :
      Trades serves q env .root ends
        (executeWithNullauthSession do
          let _ ← tpm (.nvReadPublic (tagHandle uid serves))
          tpm (.nvWrite .owner (tagHandle uid serves) [PIN_VERSION_CURRENT] 0))
        (fun r z => z.2.Knows serves q (TagTried q limit r)) z := by
    refine trades_session stable (fun r => stable_tried) guar knows fun z guar knows => ?_
    refine trades_then stable (brings_quiet (onlyX_op trivial)) guar knows (fun _ z _ guar knows => ?_)
      fun e z _ knows => knows.imp fun s renewed => ⟨renewed, nofun⟩
    apply trades_tpm stable guar knows
    intro s t r t' _ renewed shows_ run _
    rw [mark_tag rfl]
    by_cases absent : s.tag = .absent
    · obtain ⟨rfl, shows'⟩ := shows_.move (exec_nvWrite_tag_absent absent) run
      exact ⟨s, shows', rfl, .still, fun z _ knows => knows.imp fun s' same => same ▸ ⟨renewed, nofun⟩⟩
    · obtain ⟨rfl, shows'⟩ := shows_.move (exec_nvWrite_tag absent) run
      refine ⟨{ s with tag := .version PIN_VERSION_CURRENT }, shows', rfl, .tagged .written,
        fun z _ knows => ?_⟩
      refine knows.imp fun s' same =>
        same ▸ ⟨⟨renewed.removed, renewed.slot, trivial, renewed.short⟩, fun _ _ => ?_⟩
      exact ⟨renewed.removed, renewed.slot, rfl, renewed.short⟩
  refine wpx_mapErr.2 (wpx_mono tried ?_)
  rintro (e | _) z _ knows
  · exact knows.imp fun s tried => ⟨tried.1, nofun⟩
  · exact knows.imp fun s tried => ⟨tried.1, fun _ _ => tried.2 () rfl⟩

theorem trades_defineTag (guar : (Party.root.contract serves q env ends).guar z.1 z.2)
    (knows : z.2.Knows serves q (Renewed q limit fun _ => True)) :
    Trades serves q env .root ends (definePinVersionTag (tagHandle uid serves))
      (fun _ z => z.2.Knows serves q (Renewed q limit fun _ => True)) z := by
  have define : Brings serves q env .root ends (Renewed q limit fun _ => True)
      (definePinVersionTag (tagHandle uid serves))
      fun _ => True := by
    refine gives_mapErr (brings_session ?_)
    apply brings_tpm
    intro s t r t' _ renewed shows_ run _
    rw [mark_tag rfl]
    refine ⟨trivial, ?_⟩
    by_cases absent : s.tag = .absent
    · obtain ⟨-, shows'⟩ := shows_.move (exec_nvDefineSpace_tag absent) run
      exact ⟨{ s with tag := .unwritten }, shows', rfl, .tagged (.defined absent), renewed.removed,
        renewed.slot, trivial,
        renewed.short⟩
    · obtain ⟨-, shows'⟩ := shows_.move (exec_nvDefineSpace_tag_present absent) run
      exact ⟨s, shows', rfl, .still, renewed⟩
  exact wpx_mono (trades_brings (stable_renewed TagState.closed_any) define guar knows)
    fun _ _ _ post => post.1

theorem trades_writePinVersionTag (guar : (Party.root.contract serves q env ends).guar z.1 z.2)
    (knows : z.2.Knows serves q (Renewed q limit fun _ => True)) :
    Trades serves q env .root ends (writePinVersionTag uid PIN_VERSION_CURRENT)
      (fun r z => z.2.Knows serves q (Won (Renewed q limit (· = .version PIN_VERSION_CURRENT)) r))
        z := by
  unfold writePinVersionTag
  rw [versionNvIndexForUid_eq serves, ofResult_ok_bind]
  refine wpx_bind.2 (wpx_attempt.2 (wpx_mono (trades_writeTag guar knows) ?_))
  rintro (e | _) z guar knows
  · have renewed := knows.imp fun s tried => tried.1
    cases e with
    | tpmError _ =>
      refine wpx_bind.2 (wpx_mono (trades_defineTag guar renewed) ?_)
      rintro (e | _) z guar knows
      · exact ⟨guar, knows.lost⟩
      · exact wpx_mono (trades_writeTag guar knows) fun _ _ _ knows => knows.imp fun s tried => tried.2
    | _ => exact ⟨guar, knows.lost⟩
  · exact ⟨guar, knows.imp fun s tried => tried.2⟩

/-- The TPM side of the change. -/
theorem trades_replace {m : PinManager} (positive : 0 < m.policy.maxAttempts)
    (guar : (Party.root.contract serves q env ends).guar z.1 z.2)
    (knows : z.2.Knows serves q Party.root.Cleared) :
    Trades serves q env .root ends (m.setupPin uid q)
      (fun r z => z.2.Knows serves q
        (Won (Renewed q m.policy.maxAttempts (· = .version PIN_VERSION_CURRENT)) r)) z := by
  refine trades_setupPin stable_placed (stable_renewed TagState.closed_any) (fun _ => rfl)
    (fun s cleared => ?_)
    (fun short s a placed fresh => ?_) (fun z guar knows => trades_writePinVersionTag guar knows)
      guar knows
  · exact ⟨cleared.2, .unwritten⟩
  · obtain ⟨removed, holds⟩ := placed
    rw [fresh] at holds
    cases holds
    exact ⟨removed, ⟨_, rfl, UInt32.not_le.2 positive, rfl⟩, trivial, short⟩

/-! ## The whole command -/

/-- The judgement of a part of a party's program. -/
abbrev Runs {ε α : Type} (serves : Serves uid) (q : Pin) (env : Env) (party : Party)
    (ends : Outcome → Trade → Prop) (y : Fallible UtilCmd ε α)
    (Q : Except ε α → Trade × Trade → Prop) (z : Trade × Trade) : Prop :=
  wpx (Amid (party.contract serves q env ends).acts (party.contract serves q env ends).rely)
    (fun z => (party.contract serves q env ends).guar z.1 z.2) y Q z

/-- What a part that talks to the host gives. -/
abbrev Learns {ε α : Type} (serves : Serves uid) (q : Pin) (env : Env)
    (ends : Outcome → Trade → Prop) (φ : Exchange → Prop) (y : Fallible UtilCmd ε α)
    (Φ : Except ε α → Prop) : Prop :=
  Gives (Party.root.contract serves q env ends).acts (Trade.Knows serves q φ)
    (fun event => (Party.root.contract serves q env ends).guar event.before event.after) y Φ

theorem runs_manage {α : Type} {x : PinM α} {Q : PinResult α → Trade × Trade → Prop}
    (body : Trades serves q env .root ends x Q z) : Runs serves q env .root ends (manage x) Q z :=
  Prog.wp_left.2 body

theorem runs_learns {ε α β : Type} {y : Fallible UtilCmd ε α} {f : α → Fallible UtilCmd ε β}
    {Φ : Except ε α → Prop} {Q : Except ε β → Trade × Trade → Prop}
    (stable : Party.root.Stable q.auth φ) (learns : Learns serves q env ends φ y Φ)
    (guar : (Party.root.contract serves q env ends).guar z.1 z.2) (knows : z.2.Knows serves q φ)
    (next : ∀ a z, Φ (.ok a) → (Party.root.contract serves q env ends).guar z.1 z.2 →
      z.2.Knows serves q φ →
      Runs serves q env .root ends (f a) Q z)
    (fails : ∀ e z, Φ (.error e) → z.2.Knows serves q φ → Q (.error e) z) :
    Runs serves q env .root ends (y >>= f) Q z :=
  Contract.wpx_then (Party.root.contract serves q env ends) learns
    (fun x y knows relied => @Trade.Knows.rely _ _ _ env _ ends _ x y knows stable relied)
    (fun _ _ _ _ _ guar => guar) guar knows next fails

theorem learns_inr {ε α : Type} {c : HostCmd} {read : Answer c → Except ε α} {Φ : Except ε α → Prop}
    (answer : ∀ r, Types q env c r → Φ (read r)) : Learns serves q env ends φ (inr c read) Φ := by
  apply gives_op
  rintro x r y ⟨s, fair, is_, one⟩ ⟨-, tpm, mark, types⟩
  exact ⟨guar_still tpm mark, ⟨s, fair, ⟨tpm ▸ is_.account, mark.trans is_.removed⟩, one⟩,
    answer r types⟩

/-- What an operation of the manager brings, and then the rest. -/
theorem runs_brings {α β : Type} {x : PinM α} {f : α → UtilM β} {Φ : PinResult α → Prop}
    {Q : PinResult β → Trade × Trade → Prop} (stable : Party.root.Stable q.auth φ)
    (brings : Brings serves q env .root ends φ x Φ)
    (guar : (Party.root.contract serves q env ends).guar z.1 z.2) (knows : z.2.Knows serves q φ)
    (next : ∀ a z, Φ (.ok a) → (Party.root.contract serves q env ends).guar z.1 z.2 →
      z.2.Knows serves q φ →
      Runs serves q env .root ends (f a) Q z)
    (fails : ∀ e z, z.2.Knows serves q φ → Q (.error e) z) :
    Runs serves q env .root ends (manage x >>= f) Q z := by
  refine wpx_bind.2 (wpx_mono (runs_manage (trades_brings stable brings guar knows)) ?_)
  rintro (e | a) z guar ⟨knows, result⟩
  · exact ⟨guar, fails e z knows⟩
  · exact next a z result guar knows

theorem learns_human {text : Text} :
    Learns serves q env ends φ (Util.human env text) fun _ => True := by
  unfold Util.human
  split
  · exact gives_pure trivial
  · exact learns_inr fun _ _ => trivial

theorem learns_call {ε α : Type} {c : HostCmd} {read : Answer c → Except ε α} :
    Learns serves q env ends φ (inr c read) fun _ => True :=
  learns_inr fun _ _ => trivial

theorem learns_promptPin {prompt : Text} {attempts : Option (UInt32 × UInt32)} :
    Learns serves q env ends φ (Util.promptPin env prompt attempts) fun r =>
      ∀ pin, r = .ok pin → pin = q := by
  have line : Learns serves q env ends φ readLine fun r => ∀ line, r = .ok line →
      ∀ pin, Pin.new line env.policy = .ok pin →
      pin = q := by
    apply learns_inr
    rintro (e | line) types input read
    · cases read
    · cases read
      exact types
  have parsed : ∀ input, (∀ pin, Pin.new input env.policy = .ok pin → pin = q) →
      Learns serves q env ends φ (ofResult (Pin.new input env.policy)) fun r =>
        ∀ pin, r = .ok pin → pin = q :=
    fun input own => gives_ofResult own
  unfold Util.promptPin
  split
  · exact gives_bind line (fun input own => parsed input (own input rfl)) nofun
  refine gives_bind learns_call (fun _ _ => ?_) nofun
  refine gives_bind learns_call (fun _ _ => ?_) nofun
  refine gives_bind learns_call (fun _ _ => ?_) nofun
  refine gives_attempt_bind line fun r own => ?_
  refine gives_bind learns_call (fun _ _ => ?_) nofun
  refine gives_bind learns_call (fun _ _ => ?_) nofun
  have read : Learns serves q env ends φ (ofResult r) fun r => ∀ line, r = .ok line →
      ∀ pin, Pin.new line env.policy = .ok pin →
      pin = q := gives_ofResult own
  exact gives_bind read (fun input own => parsed input (own input rfl)) nofun

theorem learns_confirmedPin {prompt again : Text} :
    Learns serves q env ends φ (Util.confirmedPin env prompt again) fun r =>
      ∀ pin, r = .ok pin → pin = q := by
  unfold Util.confirmedPin
  refine gives_bind learns_promptPin (fun pin own => ?_) (by simp)
  split
  · exact gives_pure fun pin' same => own pin' same
  refine gives_bind learns_promptPin (fun confirm _ => ?_) (by simp)
  split
  · exact gives_throw (by simp)
  · exact gives_pure fun pin' same => own pin' same

/-- A change by root that returned `Ok` leaves the new slot under its own tag. -/
theorem runs_changePin {username : Str} (root : env.uid = 0)
    (resolved : env.uidOf username = some uid) (positive : 0 < env.policy.maxAttempts)
    (guar : (Party.root.contract serves q env ends).guar z.1 z.2)
    (knows : z.2.Knows serves q fun _ => True) :
    Runs serves q env .root ends (Util.changePin env username)
      (fun r z => z.2.Knows serves q
        (Won (Renewed q env.policy.maxAttempts (· = .version PIN_VERSION_CURRENT)) r)) z := by
  have found : env.getUidFromUsername username = .ok uid := by
    rw [Env.getUidFromUsername, resolved]
  have connects : ∀ tcti, OnlyX NvCmd.Quiet (ofTss (tpm (.connect tcti)) : PinM Unit) :=
    fun _ => onlyX_mapErr (onlyX_op trivial)
  have manager : Brings serves q env .root ends (fun _ => True) (PinManager.new env.policy)
      fun r => ∀ m, r = .ok m → m.policy = env.policy := by
    refine gives_bind (brings_quiet (connects _)) (fun _ _ => gives_pure ?_) (by simp)
    rintro _ ⟨⟩
    rfl
  have slot : OnlyX NvCmd.Quiet (getPinSlot uid) :=
    onlyX_bind onlyX_ofResult fun _ => readPinSlotOwner_quiet
  unfold Util.changePin
  rw [found, ofResult_ok_bind, if_neg (by simp [Env.canManagePin, root])]
  refine runs_brings Party.stable_any manager guar knows (fun m z own guar knows => ?_)
    fun e z knows => knows.lost
  have policy := own m rfl
  unfold Util.getAttemptInfo
  rw [bind_assoc]
  refine runs_brings Party.stable_any (brings_quiet slot) guar knows (fun slot z _ guar knows => ?_)
    fun e z knows => knows.lost
  rw [pure_bind]
  cases slot with
  | none => exact ⟨guar, knows.lost⟩
  | some slot =>
    refine runs_brings Party.stable_any (brings_quiet (connects _)) guar knows
      (fun _ z _ guar knows => ?_)
      fun e z knows => knows.lost
    rw [if_neg (not_not.2 root)]
    unfold Util.changeAnyPin
    refine runs_learns Party.stable_any learns_confirmedPin guar knows (fun pin z own guar knows => ?_)
      fun e z _ knows => knows.lost
    obtain rfl := own pin rfl
    refine wpx_bind.2 (wpx_mono (runs_manage (trades_deletePinAdmin Party.stable_any guar knows)) ?_)
    rintro (e | _) z guar knows
    · exact ⟨guar, knows.lost⟩
    have replaced := @trades_replace uid serves pin env ends z m (policy ▸ positive) guar knows.won
    rw [policy] at replaced
    refine wpx_bind.2 (wpx_mono (runs_manage replaced) ?_)
    rintro (e | _) z guar knows
    · exact ⟨guar, knows.lost⟩
    have shown : Learns serves pin env ends
        (Renewed pin env.policy.maxAttempts (· = .version PIN_VERSION_CURRENT))
        (Util.human env (.pinChangedForUser username)) fun _ => True := learns_human
    refine wpx_mono (Contract.wpx_gives (Party.root.contract serves pin env ends) shown
      (fun x y knows relied =>
        @Trade.Knows.rely _ _ _ env _ ends _ x y knows (stable_renewed TagState.closed_current) relied)
      (fun _ _ _ _ _ guar => guar) guar knows.won) fun r z _ post => ?_
    exact post.1.imp fun s renewed _ _ => renewed

end Root

/-! ## Both processes -/

/-- The process with the old PIN. -/
def holding (m : PinManager) (uid : UInt32) (request : Request) : Prog UtilCmd Outcome :=
  (request.program m uid).inl >>= fun reply => .ret (.held reply)

/-- `pinutil change`. -/
def changing (env : Env) (username : Str) : Prog UtilCmd Outcome :=
  (Util.changePin env username).run >>= fun r => .ret (.changed r)

section Replacement

variable {uid : UInt32} {serves : Serves uid} {p q : Pin} {env : Env} {username : Str}
  {m : PinManager} {request : Request} {t t' : Tpm} {u u' : Console} {acc : Account}
  {events : List (Nat × Event UtilCmd (Tpm × Console))} {pool : List (Prog UtilCmd Outcome)}
  {limit : UInt32} {i j : Nat} {x y z : Trade}

/-- The TPM command of the event tramples on the new slot. -/
def Event.tramples (serves : Serves uid) (q : Pin) (event : Event UtilCmd (Tpm × Console)) : Prop :=
  match event.op with
  | .inl c => Tramples serves q event.before.1 c
  | .inr _ => False

/-- A line typed in the event gives no PIN but `q`. -/
def Event.types (q : Pin) (env : Env) : Event UtilCmd (Tpm × Console) → Prop
  | ⟨_, .inr c, r, _⟩ => Types q env c r
  | ⟨_, .inl _, _, _⟩ => True

/-- The new slot is in force once the change has returned. -/
def Changed (serves : Serves uid) (q : Pin) (limit : UInt32) (outcome : Outcome) (x : Trade) : Prop :=
  outcome = .changed (.ok ()) → x.Knows serves q (Renewed q limit (· = .version PIN_VERSION_CURRENT))

/-- The contracts of the two; there is no third process. -/
def sides (serves : Serves uid) (q : Pin) (env : Env) : Nat → Contract UtilCmd Trade Outcome
  | 0 => Party.holder.contract serves q env fun _ _ => True
  | 1 => Party.root.contract serves q env (Changed serves q env.policy.maxAttempts)
  | _ + 2 => ⟨fun _ _ _ _ => True, fun _ _ => True, fun _ _ => False, fun _ _ => True⟩

theorem sides_refl : (sides serves q env i).rely x x := by
  match i with
  | 0 => exact Party.rely_refl
  | 1 => exact Party.rely_refl
  | _ + 2 => exact trivial

theorem party_trans {party : Party} {ends : Outcome → Trade → Prop}
    (first : (party.contract serves q env ends).rely x y)
    (second : (party.contract serves q env ends).rely y z) :
    (party.contract serves q env ends).rely x z := by
  intro s fair is_
  obtain ⟨s', is', steps⟩ := first s fair is_
  have stable : party.Stable q.auth fun _ => True := Party.stable_any
  obtain ⟨s'', is'', steps'⟩ := second s' (steps_stable stable fair trivial steps).1 is'
  exact ⟨s'', is'', steps.trans steps'⟩

theorem sides_trans (first : (sides serves q env i).rely x y)
    (second : (sides serves q env i).rely y z) :
    (sides serves q env i).rely x z := by
  match i with
  | 0 => exact party_trans first second
  | 1 => exact party_trans first second
  | _ + 2 => exact trivial

/-- A step of one party is one the other relies on. -/
theorem sides_compatible (ne : i ≠ j) (guar : (sides serves q env i).guar x y) :
    (sides serves q env j).rely x y := by
  have single : ∀ {party : Party} {ends ends' : Outcome → Trade → Prop},
      (party.contract serves q env ends).guar x y →
      (party.other.contract serves q env ends').rely x y := by
    intro party ends ends' guar s fair is_
    obtain ⟨s', is', step⟩ := guar s fair is_
    refine ⟨s', is', .single ?_⟩
    cases party with
    | holder => exact step
    | root => exact step
  match i, j with
  | 0, 0 => exact absurd rfl ne
  | 1, 1 => exact absurd rfl ne
  | 0, 1 => exact @single .holder _ _ guar
  | 1, 0 => exact @single .root _ _ guar
  | _ + 2, _ => exact guar.elim
  | 0, _ + 2 => exact trivial
  | 1, _ + 2 => exact trivial

theorem sides_acts {c : UtilCmd} {r : Answer c} {s' : Tpm × Console}
    (act : Tpm.exec.graph.sum Console.any c x.view r s')
    (spares : i = 0 → ¬ Event.tramples serves q ⟨x.view, c, r, s'⟩)
    (types : Event.types q env ⟨x.view, c, r, s'⟩) :
    ∃ x', x'.view = s' ∧ (sides serves q env i).acts c x r x' := by
  obtain ⟨t', u'⟩ := s'
  cases c with
  | inl c =>
    obtain ⟨run, same⟩ := act
    match i with
    | 0 => exact ⟨⟨t', u', x.removed⟩, rfl, run, same, rfl, fun _ => spares rfl⟩
    | 1 => exact ⟨⟨t', u', x.removed || x.tpm.removes serves c⟩, rfl, run, same, rfl, nofun⟩
    | _ + 2 => exact ⟨⟨t', u', false⟩, rfl, trivial⟩
  | inr c =>
    obtain ⟨run, same⟩ := act
    match i with
    | 0 => exact ⟨⟨t', u', x.removed⟩, rfl, run, same, rfl, types⟩
    | 1 => exact ⟨⟨t', u', x.removed⟩, rfl, run, same, rfl, types⟩
    | _ + 2 => exact ⟨⟨t', u', false⟩, rfl, trivial⟩

theorem holding_keeps (presents : request.presents = some p) (knows : x.Knows serves q fun _ => True) :
    (sides serves q env 0).Keeps (holding m uid request) x := by
  refine ⟨(x, x), ?_, sides_refl⟩
  have guar : (Party.holder.contract serves q env fun _ _ => True).guar x x := guar_still rfl rfl
  have goes : ∀ {α : Type} {y : PinM α} (f : PinResult α → Reply),
      Goes serves q env (fun _ _ => True) y (x, x) →
      ((y.run >>= fun r => Prog.ret (f r)).inl >>= fun reply =>
          Prog.ret (Outcome.held reply) : Prog UtilCmd Outcome).wp
        (Amid (sides serves q env 0).acts (sides serves q env 0).rely)
        (fun z => (sides serves q env 0).guar z.1 z.2) (fun _ _ => True) (x, x) := by
    intro α y f goes
    have served : (y.run >>= fun r => Prog.ret (f r)).wp
        (Amid (fun c => (sides serves q env 0).acts (.inl c)) (sides serves q env 0).rely)
        (fun z => (sides serves q env 0).guar z.1 z.2) (fun _ _ => True) (x, x) :=
      Prog.wp_seq goes fun r z guar _ => ⟨guar, trivial⟩
    exact Prog.wp_seq (Prog.wp_left.2 served) fun reply z guar _ => ⟨guar, trivial⟩
  have judged : (holding m uid request).wp
      (Amid (sides serves q env 0).acts (sides serves q env 0).rely)
      (fun z => (sides serves q env 0).guar z.1 z.2) (fun _ _ => True) (x, x) := by
    cases request with
    | verifyPin pin => exact goes .verifyPin (goes_verifyPin guar knows)
    | deletePinWithAuth pin => exact goes .deletePinWithAuth (goes_deletePinWithAuth guar knows)
    | _ => cases presents
  exact Prog.wp_mono judged fun _ _ _ _ _ _ => trivial

theorem changing_keeps (root : env.uid = 0) (resolved : env.uidOf username = some uid)
    (positive : 0 < env.policy.maxAttempts) (knows : x.Knows serves q fun _ => True) :
    (sides serves q env 1).Keeps (changing env username) x := by
  refine ⟨(x, x), ?_, sides_refl⟩
  refine Prog.wp_seq (runs_changePin root resolved positive (guar_still rfl rfl) knows)
    fun r z guar knows => ⟨guar, ?_⟩
  rintro y relied ⟨⟩
  exact knows.won.rely (stable_renewed TagState.closed_current) relied

/-- The new PIN is the one that opens the slot. -/
theorem Renewed.verifies {s : Exchange} (renewed : Renewed q limit (· = .version PIN_VERSION_CURRENT) s)
    (low : limit.toNat < 2 ^ 31) (shows_ : t.Shows serves ⟨s.slot, s.tag⟩) :
    ∃ data, ∀ m : PinManager, (exec Tpm.exec (m.verifyPin uid q) t).1 = .ok (.success data) := by
  obtain ⟨c, slot, unlocked, same⟩ := renewed.slot
  have accepts : Account.Accepts q ⟨s.slot, s.tag⟩ c :=
    .current (congrArg TagState.read renewed.tag) ⟨slot, unlocked, same ▸ low⟩ renewed.short
  refine ⟨(c.after true).data, fun m => ?_⟩
  rw [← shows_.eq_put, exec_verifyPin]
  exact accepts.success

/-- In every run in which the holder of the old PIN does not trample on the new slot, a
change that has returned `Ok` is in force. -/
theorem replaced_pin_in_force (root : env.uid = 0) (resolved : env.uidOf username = some uid)
    (positive : 0 < env.policy.maxAttempts) (low : env.policy.maxAttempts.toNat < 2 ^ 31)
    (presents : request.presents = some p) (start : t.Shows serves acc)
    (run : Pool.Steps (Tpm.exec.graph.sum Console.any) [holding m uid request, changing env username]
      (t, u) events pool (t', u'))
    (typed : ∀ x ∈ events, Event.types q env x.2)
    (spares : ∀ x ∈ events, x.1 = 0 → ¬ Event.tramples serves q x.2)
    (done : pool[1]? = some (.ret (.changed (.ok ())))) :
    ∃ data, ∀ m : PinManager, (exec Tpm.exec (m.verifyPin uid q) t').1 = .ok (.success data) := by
  have knows : Trade.Knows serves q (fun _ => True) ⟨t, u, false⟩ :=
    ⟨⟨acc.slot, acc.tag, false⟩, nofun, ⟨start, rfl⟩, trivial⟩
  have begins : ∀ i prog, [holding m uid request, changing env username][i]? = some prog →
      (sides serves q env i).Keeps prog ⟨t, u, false⟩ := by
    intro i prog at_
    match i with
    | 0 =>
      cases at_
      exact holding_keeps presents knows
    | 1 =>
      cases at_
      exact changing_keeps root resolved positive knows
    | _ + 2 => cases at_
  obtain ⟨x, same, kept, -, -⟩ :=
    @Pool.Steps.keeps UtilCmd (Tpm × Console) Trade Outcome _ _ _ _ _ _ _ Trade.view
      (sides serves q env) (fun x => Event.types q env x.2 ∧ (x.1 = 0 → ¬ Event.tramples serves q x.2))
      (fun _ _ => sides_refl) (fun _ _ _ _ => sides_trans)
      (fun _ _ _ _ _ act may => sides_acts act may.2 may.1) (fun _ _ ne _ _ => sides_compatible ne)
      run (fun x member => ⟨typed x member, spares x member⟩) ⟨t, u, false⟩ rfl begins
  obtain ⟨s, -, is_, renewed⟩ := (kept 1 _ done).ret rfl
  have ends : x.tpm = t' := congrArg Prod.fst same
  exact renewed.verifies low (ends ▸ is_.account)

end Replacement

/-! ## Samples -/

/-- No call of a process on a given input fails. -/
instance : Failing UtilCmd Empty where
  failAnswer fault := nomatch fault

/-- Root in machine mode. -/
def rootEnv : Env := { sampleEnv with uid := 0, euid := 0 }

section Samples

variable {uid : UInt32} {serves : Serves uid} {q : Pin} {env : Env}

/-- The line of the event gives another PIN. -/
def Event.misleads (q : Pin) (env : Env) : Event UtilCmd (Tpm × Console) → Bool
  | ⟨_, .inr .readLine, .ok line, _⟩ =>
    match Pin.new line env.policy with
    | .ok pin => decide (pin ≠ q)
    | .error _ => false
  | _ => false

theorem Event.types_of_misleads {event : Event UtilCmd (Tpm × Console)}
    (honest : Event.misleads q env event = false) :
    Event.types q env event := by
  obtain ⟨before, c | c, r, after⟩ := event
  · exact trivial
  · cases c with
    | readLine =>
      cases r with
      | error e => exact trivial
      | ok line =>
        intro pin made
        simp only [Event.misleads, made, decide_eq_false_iff_not, not_not] at honest
        exact honest
    | _ => exact trivial

/-- The command may remove a slot or use up its last attempt. -/
def Event.wears (event : Event UtilCmd (Tpm × Console)) : Bool :=
  match event.op with
  | .inl (.nvUndefineSpace _) => true
  | .inl (.nvRead (.index _) i _ _) =>
    match event.before.1.nv i with
    | some ⟨_, _, _, .pinFail (some c)⟩ => decide (c.after false).locked
    | _ => false
  | _ => false

theorem Event.tramples_wears {event : Event UtilCmd (Tpm × Console)}
    (tramples : Event.tramples serves q event) :
    Event.wears event = true := by
  obtain ⟨before, c | c, r, after⟩ := event
  · cases c with
    | nvUndefineSpace i => rfl
    | nvRead auth i size offset =>
      cases auth with
      | index a =>
        obtain ⟨-, -, c, slot, -, last⟩ := tramples
        have there : before.1.nv i = some (slotIndex q.auth (some c)) := slot
        simp only [Event.wears, there, slotIndex, decide_eq_true_eq]
        exact last
      | _ => exact tramples.elim
    | _ => exact tramples.elim
  · exact tramples.elim

/-- The two processes, root in machine mode. -/
def atOnce (request : Request) : List (Prog UtilCmd Outcome) :=
  [holding defaultManager 1000 request, changing rootEnv "alice".toList]

/-- An account and root's input, the new PIN. -/
def counter (acc : Account) (q : Pin) : Tpm × Stdin :=
  (Tpm.empty.put serves_thousand acc, ⟨[.ok q.str], .start ⟨none, none, none⟩⟩)

/-- Root goes from its start to its end between two commands of the holder. -/
def crossing (n : Nat) : List (Nat × Option Empty) :=
  Pool.inTurn (List.replicate n 0 ++ List.replicate 80 1 ++ List.replicate 80 0)

/-- The run of the two. -/
abbrev crossed (n : Nat) (request : Request) (acc : Account) (q : Pin) :
    List (Prog UtilCmd Outcome) × Tpm × Stdin :=
  Pool.play (process idleKeys) (crossing n) (atOnce request) (counter acc q)

def currentAccount : Account := ⟨.written plainPin.auth ⟨0, 3⟩, .version PIN_VERSION_CURRENT⟩

def legacyAccount : Account := ⟨.written chosenPin.legacyAuth ⟨0, 3⟩, .absent⟩

theorem crossed_steps {n : Nat} {request : Request} {acc : Account} :
    Pool.Steps (Tpm.exec.graph.sum Console.any) (atOnce request)
      (Tpm.empty.put serves_thousand acc, .start ⟨none, none, none⟩)
      ((Pool.events (process idleKeys) (crossing n) (atOnce request) (counter acc q)).map fun x =>
        (x.1, x.2.seen (Prod.map id Stdin.console)))
      (crossed n request acc q).1
      ((crossed n request acc q).2.1, (crossed n request acc q).2.2.console) := by
  have played : Pool.Steps (process idleKeys).graph (atOnce request) (counter acc q)
      (Pool.events (process idleKeys) (crossing n) (atOnce request) (counter acc q))
      (crossed n request acc q).1 (crossed n request acc q).2 := Pool.steps_play Pool.inTurn_calm
  have exact : Within Tpm.exec id Tpm.exec.graph := fun _ _ => rfl
  have seen := played.seen (exact.sum (Stdin.handler_within idleKeys))
  have shown : ∀ x : Tpm × Stdin, x.map id Stdin.console = (x.1, x.2.console) := fun _ => rfl
  rw [shown, shown] at seen
  exact seen

/-- The change of a run that is over. -/
theorem crossed_changed {n : Nat} {request : Request} {acc : Account}
    (told : (crossed n request acc q).1[1]?.bind Prog.result? = some (.changed (.ok ()))) :
    (crossed n request acc q).1[1]? = some (.ret (.changed (.ok ()))) := by
  obtain ⟨prog, done, result⟩ := Option.bind_eq_some_iff.1 told
  rw [Prog.eq_ret_of_result? result] at done
  exact done

end Samples

/-- The verification of the old PIN that was under way meets the new slot, and is told
that the PIN is wrong. -/
theorem replaced_pin_in_force_once :
    ∃ data, ∀ m : PinManager, (exec Tpm.exec (m.verifyPin 1000 chosenPin)
      (crossed 2 (.verifyPin plainPin) currentAccount chosenPin).2.1).1 = .ok (.success data) := by
  have told : (crossed 2 (.verifyPin plainPin) currentAccount chosenPin).1[1]?.bind Prog.result? =
      some (.changed (.ok ())) := by
    decide +kernel
  have honest :
      ∀ x ∈ (Pool.events (process idleKeys) (crossing 2) (atOnce (.verifyPin plainPin))
          (counter currentAccount chosenPin)).map fun x => (x.1, x.2.seen (Prod.map id Stdin.console)),
        Event.misleads chosenPin rootEnv x.2 = false := by decide +kernel
  have gentle :
      ∀ x ∈ (Pool.events (process idleKeys) (crossing 2) (atOnce (.verifyPin plainPin))
          (counter currentAccount chosenPin)).map fun x => (x.1, x.2.seen (Prod.map id Stdin.console)),
        x.1 = 0 → Event.wears x.2 = false := by decide +kernel
  refine replaced_pin_in_force rfl (by decide) (by decide) (by decide) rfl Tpm.put_shows crossed_steps
    (fun x member => Event.types_of_misleads (honest x member)) (fun x member own tramples => ?_)
    (crossed_changed told)
  have worn := Event.tramples_wears tramples
  rw [gentle x member own] at worn
  cases worn

/-- A PIN that root has set is in force, whatever a holder of the old one requests. -/
def ReplacementKept (request : Pin → Request) : Prop :=
  ∀ (uid : UInt32) (serves : Serves uid) (m : PinManager) (env : Env) (username : Str) (p q : Pin)
    (acc : Account) (c : PinCounters) (t t' : Tpm) (u u' : Console)
    (events : List (Nat × Event UtilCmd (Tpm × Console))) (pool : List (Prog UtilCmd Outcome)),
    env.uid = 0 → env.uidOf username = some uid → 0 < env.policy.maxAttempts →
    env.policy.maxAttempts.toNat < 2 ^ 31 →
    t.Shows serves acc → acc.Accepts p c → p.auth ≠ q.auth → p.legacyAuth ≠ q.auth →
    Pool.Steps (Tpm.exec.graph.sum Console.any) [holding m uid (request p), changing env username]
      (t, u) events pool (t', u') →
    (∀ x ∈ events, Event.types q env x.2) → pool[1]? = some (.ret (.changed (.ok ()))) →
    ∃ data, ∀ m : PinManager, (exec Tpm.exec (m.verifyPin uid q) t').1 = .ok (.success data)

/-- A deletion that verified the old PIN removes the new slot, and so does the migration
of a verification on a legacy slot. -/
theorem replaced_pin_lost : ¬ ReplacementKept .deletePinWithAuth ∧ ¬ ReplacementKept .verifyPin := by
  constructor
  · intro claim
    have told : (crossed 8 (.deletePinWithAuth plainPin) currentAccount chosenPin).1[1]?.bind
        Prog.result? = some (.changed (.ok ())) := by decide +kernel
    have honest :
        ∀ x ∈ (Pool.events (process idleKeys) (crossing 8) (atOnce (.deletePinWithAuth plainPin))
            (counter currentAccount chosenPin)).map fun x => (x.1, x.2.seen (Prod.map id Stdin.console)),
          Event.misleads chosenPin rootEnv x.2 = false := by decide +kernel
    have lost : (exec Tpm.exec (defaultManager.verifyPin 1000 chosenPin)
        (crossed 8 (.deletePinWithAuth plainPin) currentAccount chosenPin).2.1).1 =
          .error (.ofTss (.tss2 (some .handle))) := by decide +kernel
    obtain ⟨data, kept⟩ :=
      claim 1000 serves_thousand defaultManager rootEnv "alice".toList plainPin chosenPin currentAccount
        ⟨0, 3⟩ _ _ _ _ _ _ rfl (by decide) (by decide) (by decide) Tpm.put_shows
        (.current rfl ⟨rfl, by decide, by decide⟩ (by decide +kernel)) (by decide +kernel)
        (by decide +kernel) crossed_steps
        (fun x member => Event.types_of_misleads (honest x member)) (crossed_changed told)
    cases lost.symm.trans (kept defaultManager)
  · intro claim
    have told : (crossed 8 (.verifyPin chosenPin) legacyAccount plainPin).1[1]?.bind Prog.result? =
        some (.changed (.ok ())) := by
      decide +kernel
    have honest :
        ∀ x ∈ (Pool.events (process idleKeys) (crossing 8) (atOnce (.verifyPin chosenPin))
            (counter legacyAccount plainPin)).map fun x => (x.1, x.2.seen (Prod.map id Stdin.console)),
          Event.misleads plainPin rootEnv x.2 = false := by decide +kernel
    have lost : (exec Tpm.exec (defaultManager.verifyPin 1000 plainPin)
        (crossed 8 (.verifyPin chosenPin) legacyAccount plainPin).2.1).1 = .ok (.invalid false) := by
      decide +kernel
    obtain ⟨data, kept⟩ :=
      claim 1000 serves_thousand defaultManager rootEnv "alice".toList chosenPin plainPin legacyAccount
        ⟨0, 3⟩ _ _ _ _ _ _ rfl (by decide) (by decide) (by decide) Tpm.put_shows
        (.legacy rfl ⟨rfl, by decide, by decide⟩ (by decide +kernel)) (by decide +kernel)
        (by decide +kernel) crossed_steps
        (fun x member => Event.types_of_misleads (honest x member)) (crossed_changed told)
    cases lost.symm.trans (kept defaultManager)

end Pinpam
