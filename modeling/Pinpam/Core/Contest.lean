import Pinpam.Effect.Schedule
import Pinpam.Core.Locality

/-!
# Concurrent setups

Any number of processes set up the same user. The one whose definition of the slot is
answered owns it from then on; every other finds the slot, and no command of it has an
effect.
-/

namespace Pinpam
set_option autoImplicit false
open Pinpam.Effect Pinpam.Effect.Fallible

/-- The TPM, with the process that made the slot. -/
@[ext] structure Contest where
  tpm : Tpm
  owner : Option Nat

section Contest

variable {uid : UInt32} {serves : Serves uid} {t₀ t : Tpm} {n i : Nat} {x y : Contest}

/-- Nothing has happened until there is an owner, and then the slot is there. -/
structure Contest.Fair (serves : Serves uid) (t₀ : Tpm) (n : Nat) (x : Contest) : Prop where
  idle : x.owner = none → x.tpm = t₀
  taken : x.owner ≠ none → x.tpm.nv (slotHandle uid serves) ≠ none
  among : ∀ j, x.owner = some j → j < n

/-- Process `i` of `n` in the contest: it relies on its slot being left alone, leaves the
slot of another alone, and wins with the TPM in the state `final` or loses. -/
def contender (serves : Serves uid) (t₀ : Tpm) (n i : Nat) (final : Tpm) :
    Contract NvCmd Contest Reply where
  acts c x r y := Tpm.exec c x.tpm = (r, y.tpm) ∧ y.owner =
    if x.tpm.nv (slotHandle uid serves) = none ∧ y.tpm.nv (slotHandle uid serves) ≠
    none then some i else x.owner
  rely x y := x.Fair serves t₀ n → y.Fair serves t₀ n ∧ (x.owner = some i → y = x) ∧
    (∀ j, j ≠ i → x.owner = some j → y.owner = some j) ∧ (x.owner = none → y.owner ≠ some i)
  guar x y := x.Fair serves t₀ n → y.Fair serves t₀ n ∧ (x.owner = some i → y.owner = some i) ∧
    (∀ j, j ≠ i → x.owner = some j → y = x) ∧ (x.owner = none → y = x ∨ y.owner = some i)
  ends a x := x.Fair serves t₀ n → (x.owner = some i ∧ a = .setupPin (.ok ()) ∧ x.tpm = final) ∨
    ∃ j e, j ≠ i ∧ x.owner = some j ∧ a = .setupPin (.error e)

/-! ## What a contender knows -/

/-- Another process owns the slot. -/
def Lost (serves : Serves uid) (t₀ : Tpm) (n i : Nat) (x : Contest) : Prop :=
  x.Fair serves t₀ n ∧ ∃ j, j ≠ i ∧ x.owner = some j

/-- Nothing has happened. -/
def Idle (serves : Serves uid) (t₀ : Tpm) (n : Nat) (x : Contest) : Prop :=
  x.Fair serves t₀ n ∧ x = ⟨t₀, none⟩

/-- The process owns the slot, and the TPM is in the state `t`. -/
def Mine (serves : Serves uid) (t₀ : Tpm) (n i : Nat) (t : Tpm) (x : Contest) : Prop :=
  x.Fair serves t₀ n ∧ x = ⟨t, some i⟩

variable {final : Tpm} {z : Contest × Contest} {α ε : Type}

/-- The judgement of a part of a contender's program. -/
abbrev Judged (serves : Serves uid) (t₀ : Tpm) (n i : Nat) (final : Tpm) (y : Fallible NvCmd ε α)
    (Q : Except ε α → Contest × Contest → Prop) (z : Contest × Contest) : Prop :=
  wpx (Amid (contender serves t₀ n i final).acts (contender serves t₀ n i final).rely)
    (fun z => (contender serves t₀ n i final).guar z.1 z.2) y Q z

theorem lost_stable (lost : Lost serves t₀ n i x) (relied : (contender serves t₀ n i final).rely x y) :
    Lost serves t₀ n i y := by
  obtain ⟨fair, j, other, owner⟩ := lost
  obtain ⟨fair', -, kept, -⟩ := relied fair
  exact ⟨fair', j, other, kept j other owner⟩

theorem idle_rely (idle : Idle serves t₀ n x) (relied : (contender serves t₀ n i final).rely x y) :
    Idle serves t₀ n y ∨ Lost serves t₀ n i y := by
  obtain ⟨fair, rfl⟩ := idle
  obtain ⟨fair', -, -, other⟩ := relied fair
  cases owner : y.owner with
  | none =>
    refine .inl ⟨fair', ?_⟩
    exact Contest.ext (fair'.idle owner) owner
  | some j =>
    refine .inr ⟨fair', j, ?_, owner⟩
    rintro rfl
    exact other rfl owner

theorem mine_rely (mine : Mine serves t₀ n i t x) (relied : (contender serves t₀ n i final).rely x y) :
    y = x := by
  obtain ⟨fair, rfl⟩ := mine
  exact (relied fair).2.1 rfl

/-- A command without an effect. -/
theorem quiet_acts {c : NvCmd} {r : Answer c} (quiet : c.Quiet)
    (acts : (contender serves t₀ n i final).acts c x r y) : y = x := by
  obtain ⟨run, owner⟩ := acts
  have same : y.tpm = x.tpm := (congrArg Prod.snd run).symm.trans (exec_quiet quiet)
  rw [same, if_neg fun both => both.2 both.1] at owner
  exact Contest.ext same owner

theorem guar_self : (contender serves t₀ n i final).guar x x :=
  fun fair => ⟨fair, id, fun _ _ _ => rfl, fun _ => .inl rfl⟩

theorem wp_quiet_lost {p : Prog NvCmd α} (quiet : p.Only NvCmd.Quiet)
    (guar : (contender serves t₀ n i final).guar z.1 z.2) (lost : Lost serves t₀ n i z.2) :
    p.wp (Amid (contender serves t₀ n i final).acts (contender serves t₀ n i final).rely)
      (fun z => (contender serves t₀ n i final).guar z.1 z.2)
      (fun _ z => Lost serves t₀ n i z.2) z := by
  apply Contract.wp_stable _ quiet (fun _ _ => lost_stable) _ guar lost
  intro c x r y quiet lost acts
  rw [quiet_acts quiet acts]
  exact ⟨lost, guar_self⟩

/-- A quiet part of a process that has lost: its answers do not matter. -/
theorem judged_lost {β : Type} {y : Fallible NvCmd ε α} {f : α → Fallible NvCmd ε β}
    {Q : Except ε β → Contest × Contest → Prop} (quiet : OnlyX NvCmd.Quiet y)
    (guar : (contender serves t₀ n i final).guar z.1 z.2) (lost : Lost serves t₀ n i z.2)
    (next : ∀ z a, (contender serves t₀ n i final).guar z.1 z.2 → Lost serves t₀ n i z.2 →
      Judged serves t₀ n i final (f a) Q z)
    (fails : ∀ z e, Lost serves t₀ n i z.2 → Q (.error e) z) :
    Judged serves t₀ n i final (y >>= f) Q z := by
  refine wpx_bind.2 (Prog.wp_mono (wp_quiet_lost quiet guar lost) fun r z guar lost => ?_)
  cases r with
  | ok a => exact next z a guar lost
  | error e => exact ⟨guar, fails z e lost⟩

theorem quiet_tpm {c : NvCmd} (quiet : c.Quiet) : OnlyX NvCmd.Quiet (tpm c) := onlyX_op quiet

/-- Until there is an owner a quiet program runs as it does at the start. -/
theorem wp_quiet_idle {p : Prog NvCmd α} (quiet : p.Only NvCmd.Quiet)
    (guar : (contender serves t₀ n i final).guar z.1 z.2) (idle : Idle serves t₀ n z.2) :
    p.wp (Amid (contender serves t₀ n i final).acts (contender serves t₀ n i final).rely)
      (fun z => (contender serves t₀ n i final).guar z.1 z.2)
      (fun a z => (Idle serves t₀ n z.2 ∧ a = (p.run Tpm.exec t₀).1) ∨ Lost serves t₀ n i z.2) z := by
  induction p generalizing z with
  | ret a => exact ⟨guar, .inl ⟨idle, rfl⟩⟩
  | call c k ih =>
    refine ⟨guar, fun r y step => ?_⟩
    have same := quiet_acts quiet.1 step.2
    have here : (contender serves t₀ n i final).guar y.1 y.2 := by
      rw [same]
      exact guar_self
    rcases idle_rely idle step.1 with still | lost
    · have run : Tpm.exec c t₀ = (r, y.2.tpm) := by
        have acted := step.2.1
        rw [still.2] at acted
        exact acted
      have after : (Tpm.exec c t₀).2 = t₀ := exec_quiet quiet.1
      rw [← same] at still
      refine Prog.wp_mono (ih r (quiet.2 r) here still) fun a z _ post => ?_
      rw [Prog.run_call, after, show (Tpm.exec c t₀).1 = r from congrArg Prod.fst run]
      exact post
    · rw [← same] at lost
      exact Prog.wp_mono (wp_quiet_lost (quiet.2 r) here lost) fun _ _ _ post => .inr post

/-- A quiet part from the start: its continuation knows the answer, or has lost. -/
theorem judged_quiet {β : Type} {y : Fallible NvCmd ε α} {f : α → Fallible NvCmd ε β} {a : α}
    {Q : Except ε β → Contest × Contest → Prop} (quiet : OnlyX NvCmd.Quiet y)
    (answer : (exec Tpm.exec y t₀).1 = .ok a) (guar : (contender serves t₀ n i final).guar z.1 z.2)
    (idle : Idle serves t₀ n z.2)
    (next : ∀ z, (contender serves t₀ n i final).guar z.1 z.2 → Idle serves t₀ n z.2 →
      Judged serves t₀ n i final (f a) Q z)
    (lost : ∀ z b, (contender serves t₀ n i final).guar z.1 z.2 → Lost serves t₀ n i z.2 →
      Judged serves t₀ n i final (f b) Q z)
    (fails : ∀ z e, Lost serves t₀ n i z.2 → Q (.error e) z) :
    Judged serves t₀ n i final (y >>= f) Q z := by
  refine wpx_bind.2 (Prog.wp_mono (wp_quiet_idle quiet guar idle) ?_)
  rintro r z guar (⟨idle, same⟩ | beaten)
  · rw [show Prog.run Tpm.exec y.run t₀ = exec Tpm.exec y t₀ from rfl, answer] at same
    subst same
    exact next z guar idle
  · cases r with
    | ok b => exact lost z b guar beaten
    | error e => exact ⟨guar, fails z e beaten⟩

/-- The owner of the slot runs as if it were alone. -/
theorem wp_mine {p : Prog NvCmd α} {Q : α → Tpm → Prop} (pre : p.wp (Faulty Tpm.exec fun _ => False)
      (fun t => t.nv (slotHandle uid serves) ≠ none) Q t)
    (guar : (contender serves t₀ n i final).guar z.1 z.2) (mine : Mine serves t₀ n i t z.2) :
    p.wp (Amid (contender serves t₀ n i final).acts (contender serves t₀ n i final).rely)
      (fun z => (contender serves t₀ n i final).guar z.1 z.2)
      (fun a z => ∃ t, Mine serves t₀ n i t z.2 ∧ Q a t) z := by
  induction p generalizing z t with
  | ret a => exact ⟨guar, t, mine, pre.2⟩
  | call c k ih =>
    refine ⟨guar, fun r y step => ?_⟩
    have same := mine_rely mine step.1
    obtain ⟨fair, own⟩ := mine
    obtain ⟨run, owner⟩ := step.2
    rw [same, own] at run owner
    have next := pre.2 (Tpm.exec c t).1 (Tpm.exec c t).2 (.done c t)
    rw [run] at next
    have there := Prog.wp_crash next
    rw [if_neg fun both => pre.1 both.1] at owner
    have fair' : y.2.Fair serves t₀ n := by
      constructor
      · intro none_
        rw [owner] at none_
        cases none_
      · exact fun _ => there
      · intro j owned
        rw [owner] at owned
        exact fair.among j (own ▸ owned)
    have mine' : Mine serves t₀ n i y.2.tpm y.2 := ⟨fair', Contest.ext rfl owner⟩
    refine ih r next ?_ mine'
    rw [same]
    refine fun _ => ⟨fair', fun _ => owner, fun j other owned => ?_, fun none_ => ?_⟩
    · rw [own] at owned
      exact absurd (Option.some.inj owned).symm other
    · rw [own] at none_
      cases none_

/-- A part the owner runs alone, with a known end. -/
theorem judged_mine {β : Type} {y : Fallible NvCmd ε α} {f : α → Fallible NvCmd ε β} {a : α} {t' : Tpm}
    {Q : Except ε β → Contest × Contest → Prop} (pre : wpx (Faulty Tpm.exec fun _ => False)
      (fun t => t.nv (slotHandle uid serves) ≠ none) y (fun r t'' => r = .ok a ∧ t'' = t') t)
    (guar : (contender serves t₀ n i final).guar z.1 z.2) (mine : Mine serves t₀ n i t z.2)
    (next : ∀ z, (contender serves t₀ n i final).guar z.1 z.2 → Mine serves t₀ n i t' z.2 →
      Judged serves t₀ n i final (f a) Q z) :
    Judged serves t₀ n i final (y >>= f) Q z := by
  refine wpx_bind.2 (Prog.wp_mono (wp_mine pre guar mine) ?_)
  rintro _ z guar ⟨_, mine, rfl, rfl⟩
  exact next z guar mine

/-! ## The definition of the slot -/

/-- The process has lost, and its program throws. -/
def Throws (serves : Serves uid) (t₀ : Tpm) (n i : Nat) (r : Except ε α) (z : Contest × Contest) :
    Prop :=
  Lost serves t₀ n i z.2 ∧ ∃ e, r = .error e

/-- The rest of a session whose command was refused. -/
theorem refused_lost {e : TssError} (guar : (contender serves t₀ n i final).guar z.1 z.2)
    (lost : Lost serves t₀ n i z.2) :
    Judged serves t₀ n i final (do tpm .flushContext; ofResult (.error e) : TssM Unit)
      (Throws serves t₀ n i) z :=
  judged_lost (quiet_tpm trivial) guar lost (fun _ _ guar lost => ⟨guar, lost, _, rfl⟩)
    fun _ _ lost => ⟨lost, _, rfl⟩

/-- A slot that is there is not defined again. -/
theorem define_refused {a : Auth} {pub : NvPublic} (named : pub.nvIndex = slotHandle uid serves)
    (present : t.nv (slotHandle uid serves) ≠ none) :
    Tpm.exec (.nvDefineSpace a pub) t = (refuse .nvDefined, t) := by
  obtain ⟨index, there⟩ := Option.ne_none_iff_exists'.1 present
  simp only [Tpm.exec, Tpm.nvDefineSpace, named, there, Option.isSome_some, if_true]

theorem define_acts_lost {a : Auth} {pub : NvPublic} {r : Answer (NvCmd.nvDefineSpace a pub)}
    (named : pub.nvIndex = slotHandle uid serves) (lost : Lost serves t₀ n i x)
    (acts : (contender serves t₀ n i final).acts (.nvDefineSpace a pub) x r y) :
    r = refuse .nvDefined ∧ y = x := by
  obtain ⟨fair, j, other, owned⟩ := lost
  obtain ⟨run, owner⟩ := acts
  rw [@define_refused uid serves x.tpm a pub named (fair.taken (by rw [owned]; exact nofun))] at run
  obtain ⟨rfl, same⟩ := Prod.mk.inj run
  rw [← same, if_neg fun both => both.2 both.1] at owner
  exact ⟨rfl, Contest.ext same.symm owner⟩

theorem define_lost_tail {a : Auth} {pub : NvPublic} (named : pub.nvIndex = slotHandle uid serves)
    (guar : (contender serves t₀ n i final).guar z.1 z.2) (lost : Lost serves t₀ n i z.2) :
    Judged serves t₀ n i final
      (do let res ← attempt (tpm (.nvDefineSpace a pub)); tpm .flushContext; ofResult res : TssM Unit)
      (Throws serves t₀ n i) z := by
  refine wpx_bind.2 (wpx_attempt.2 (wpx_op.2 ⟨guar, fun r y step => ?_⟩))
  have lost := lost_stable lost step.1
  obtain ⟨rfl, kept⟩ := define_acts_lost named lost step.2
  have here : (contender serves t₀ n i final).guar y.1 y.2 := by
    rw [kept]
    exact guar_self
  exact ⟨here, refused_lost here (kept ▸ lost)⟩

theorem define_lost {a : Auth} {pub : NvPublic} (named : pub.nvIndex = slotHandle uid serves)
    (guar : (contender serves t₀ n i final).guar z.1 z.2) (lost : Lost serves t₀ n i z.2) :
    Judged serves t₀ n i final (ofTss (executeWithNullauthSession (tpm (.nvDefineSpace a pub))))
      (Throws serves t₀ n i) z := by
  refine wpx_mapErr.2 (judged_lost (quiet_tpm trivial) guar lost (fun z _ guar lost => ?_)
    fun _ _ lost => ⟨lost, _, rfl⟩)
  refine wpx_mono (define_lost_tail named guar lost) ?_
  rintro _ z guar ⟨lost, e, rfl⟩
  exact ⟨lost, _, rfl⟩

/-- The first definition is answered, and makes its process the owner. -/
theorem define_idle {a : Auth} {tag : TagState} (start : t₀ = t.put serves ⟨.absent, tag⟩)
    (fits : a.bytes.length ≤ authValueMax) (inside : i < n)
    (guar : (contender serves t₀ n i final).guar z.1 z.2) (idle : Idle serves t₀ n z.2) :
    Judged serves t₀ n i final
      (ofTss (executeWithNullauthSession
        (tpm (.nvDefineSpace a (slotPublic (slotHandle uid serves) slotPolicy)))))
      (fun r z => (r = .ok () ∧ Mine serves t₀ n i (t.put serves ⟨.unwritten a, tag⟩) z.2) ∨
        Throws serves t₀ n i r z) z := by
  refine wpx_mapErr.2 (judged_quiet (quiet_tpm trivial) rfl guar idle ?_ ?_ ?_)
  · intro z guar idle
    refine wpx_bind.2 (wpx_attempt.2 (wpx_op.2 ⟨guar, fun r y step => ?_⟩))
    rcases idle_rely idle step.1 with still | lost
    · have run := step.2.1
      have owner := step.2.2
      rw [still.2] at run owner
      dsimp only at run owner
      have defined := @exec_nvDefineSpace_slot uid t serves ⟨.absent, tag⟩ a rfl fits
      rw [start, defined] at run
      obtain ⟨rfl, made⟩ := Prod.mk.inj run
      dsimp only at made
      have there : y.2.tpm.nv (slotHandle uid serves) ≠ none := by
        rw [← made, put_slot]
        exact nofun
      rw [if_pos ⟨by rw [start, put_slot]; rfl, there⟩] at owner
      have fair : y.2.Fair serves t₀ n := by
        refine ⟨fun none_ => ?_, fun _ => there, fun j owned => ?_⟩
        · rw [owner] at none_
          cases none_
        · rw [owner] at owned
          exact Option.some.inj owned ▸ inside
      have mine : Mine serves t₀ n i (t.put serves ⟨.unwritten a, tag⟩) y.2 :=
        ⟨fair, Contest.ext made.symm owner⟩
      have here : (contender serves t₀ n i final).guar y.1 y.2 := by
        rw [still.2]
        exact fun _ => ⟨fair, nofun, nofun, fun _ => .inr owner⟩
      have present : (t.put serves ⟨.unwritten a, tag⟩).nv (slotHandle uid serves) ≠ none := by
        rw [put_slot]
        exact nofun
      have flushed :
          wpx (Faulty Tpm.exec fun _ => False) (fun t => t.nv (slotHandle uid serves) ≠ none)
            (tpm .flushContext)
            (fun r t'' => r = .ok () ∧ t'' = t.put serves ⟨.unwritten a, tag⟩)
            (t.put serves ⟨.unwritten a, tag⟩) :=
        wpx_tpm rfl present present ⟨rfl, rfl⟩ nofun
      exact ⟨here, judged_mine flushed here mine fun z guar mine => ⟨guar, .inl ⟨rfl, mine⟩⟩⟩
    · obtain ⟨rfl, kept⟩ := define_acts_lost rfl lost step.2
      have here : (contender serves t₀ n i final).guar y.1 y.2 := by
        rw [kept]
        exact guar_self
      refine ⟨here, wpx_mono (refused_lost here (kept ▸ lost)) ?_⟩
      rintro _ z guar ⟨lost, e, rfl⟩
      exact .inr ⟨lost, _, rfl⟩
  · intro z b guar lost
    refine wpx_mono (define_lost_tail rfl guar lost) ?_
    rintro _ z guar ⟨lost, e, rfl⟩
    exact .inr ⟨lost, _, rfl⟩
  · intro z e lost
    exact .inr ⟨lost, _, rfl⟩

/-! ## The setup -/

theorem definePinSlotArea_quiet : OnlyX NvCmd.Quiet (definePinSlotArea (slotHandle uid serves)) := by
  refine onlyX_mapErr (onlyX_bind (quiet_tpm trivial) fun _ =>
    onlyX_bind (quiet_tpm trivial) fun _ => ?_)
  refine onlyX_bind (quiet_tpm trivial) fun _ => onlyX_bind (quiet_tpm trivial) fun _ => ?_
  exact onlyX_bind (quiet_tpm trivial) fun _ => onlyX_pure

/-- The write fills a slot that is defined. -/
theorem wpx_definePinSlotWrite {m : PinManager} {a : Auth} {tag : TagState} {C : Tpm → Prop}
    (half : C (t.put serves ⟨.unwritten a, tag⟩))
    (stored : C (t.put serves ⟨.written a ⟨0, m.policy.maxAttempts⟩, tag⟩)) :
    wpx (Faulty Tpm.exec fun _ => False) C (definePinSlotWrite m (slotHandle uid serves))
      (fun r t' => r = .ok () ∧ t' = t.put serves ⟨.written a ⟨0, m.policy.maxAttempts⟩, tag⟩)
      (t.put serves ⟨.unwritten a, tag⟩) := by
  refine wpx_ofTss (wpx_bind.2 (wpx_tpm rfl half half ?_ nofun))
  refine wpx_bind.2 (wpx_tpm rfl half half ?_ nofun)
  refine wpx_bind.2 (wpx_tpm rfl half half ?_ nofun)
  refine wpx_bind.2 (wpx_tpm exec_nvReadPublic_slot half half ?_ nofun)
  exact wpx_tpm (exec_nvWrite_slot m.policy.maxAttempts rfl) half stored ⟨rfl, rfl⟩ nofun

theorem define_area_lost {a : Auth} (guar : (contender serves t₀ n i final).guar z.1 z.2)
    (lost : Lost serves t₀ n i z.2) {pub : NvPublic} (named : pub.nvIndex = slotHandle uid serves)
    {f : Unit → PinM Unit} :
    Judged serves t₀ n i final (ofTss (executeWithNullauthSession (tpm (.nvDefineSpace a pub))) >>= f)
      (Throws serves t₀ n i) z := by
  refine wpx_seq (define_lost named guar lost) (fun _ _ _ thrown => ?_) fun e z _ thrown => thrown
  obtain ⟨-, _, no⟩ := thrown
  cases no

theorem definePinSlot_lost {m : PinManager} {bytes : Bytes}
    (guar : (contender serves t₀ n i final).guar z.1 z.2) (lost : Lost serves t₀ n i z.2) :
    Judged serves t₀ n i final (m.definePinSlot (slotHandle uid serves) bytes)
      (Throws serves t₀ n i) z := by
  rw [definePinSlot_eq]
  refine judged_lost (onlyX_mapErr onlyX_ofResult) guar lost (fun z auth guar lost => ?_)
    fun _ _ lost => ⟨lost, _, rfl⟩
  refine wpx_bind.2 (Prog.wp_mono (Prog.wp_returns definePinSlotArea_names
    (wp_quiet_lost definePinSlotArea_quiet guar lost)) ?_)
  rintro r z guar ⟨lost, named⟩
  cases r with
  | error e => exact ⟨guar, lost, _, rfl⟩
  | ok pub => exact define_area_lost guar lost (named pub rfl)

/-- The owner writes the slot it defined. -/
theorem definePinSlot_idle {m : PinManager} {bytes : Bytes} {tag : TagState}
    (start : t₀ = t.put serves ⟨.absent, tag⟩) (fresh : Account.refusal bytes .absent = none)
    (inside : i < n) (guar : (contender serves t₀ n i final).guar z.1 z.2)
    (idle : Idle serves t₀ n z.2) :
    Judged serves t₀ n i final (m.definePinSlot (slotHandle uid serves) bytes)
      (fun r z => (r = .ok () ∧
        Mine serves t₀ n i (t.put serves ⟨.written (.ofBytes bytes) ⟨0, m.policy.maxAttempts⟩, tag⟩)
          z.2) ∨
        Throws serves t₀ n i r z) z := by
  obtain ⟨short, -, fits⟩ := refusal_eq_none.1 fresh
  rw [definePinSlot_eq, Auth.tryFrom, if_pos short]
  refine wpx_bind.2 (wpx_mapErr.2 ⟨guar, ?_⟩)
  refine wpx_bind.2 (Prog.wp_mono (Prog.wp_returns definePinSlotArea_names
    (wp_quiet_idle definePinSlotArea_quiet guar idle)) ?_)
  rintro r z guar ⟨⟨idle, rfl⟩ | lost, named⟩
  · have answer : (exec Tpm.exec (definePinSlotArea (slotHandle uid serves)) t₀).1 =
        .ok (slotPublic (slotHandle uid serves) slotPolicy) := rfl
    rw [show Prog.run Tpm.exec (definePinSlotArea (slotHandle uid serves)).run t₀ =
      exec Tpm.exec (definePinSlotArea (slotHandle uid serves)) t₀ from rfl, answer]
    refine wpx_bind.2 (Prog.wp_mono (define_idle start fits inside guar idle) ?_)
    rintro r z guar (⟨rfl, mine⟩ | ⟨lost, e, rfl⟩)
    · have there : ∀ slot, slot ≠ .absent →
          (t.put serves ⟨slot, tag⟩).nv (slotHandle uid serves) ≠ none := by
        intro slot present
        rw [put_slot]
        cases slot with
        | absent => exact absurd rfl present
        | unwritten a => exact Option.some_ne_none _
        | written a c => exact Option.some_ne_none _
      have written := @wpx_definePinSlotWrite uid serves t m (.ofBytes bytes) tag
        (fun t => t.nv (slotHandle uid serves) ≠ none) (there _ SlotState.noConfusion)
        (there _ SlotState.noConfusion)
      refine Prog.wp_mono (wp_mine written guar mine) ?_
      rintro _ z guar ⟨_, mine, rfl, rfl⟩
      exact .inl ⟨rfl, mine⟩
    · exact ⟨guar, .inr ⟨lost, e, rfl⟩⟩
  · cases r with
    | error e => exact ⟨guar, .inr ⟨lost, _, rfl⟩⟩
    | ok pub =>
      exact wpx_mono (define_area_lost guar lost (named pub rfl)) fun _ _ _ thrown => .inr thrown

/-- A setup that has lost throws. -/
theorem setup_lost {m : PinManager} {bytes : Bytes} {f : Unit → PinM Unit}
    (guar : (contender serves t₀ n i final).guar z.1 z.2) (lost : Lost serves t₀ n i z.2)
    (existing : Option PinData) :
    Judged serves t₀ n i final
      (if existing.isSome then throw (.alreadyProvisioned uid)
        else m.definePinSlot (slotHandle uid serves) bytes >>= f)
      (Throws serves t₀ n i) z := by
  split
  · exact ⟨guar, lost, _, rfl⟩
  · refine wpx_seq (definePinSlot_lost guar lost) (fun _ _ _ thrown => ?_) fun e z _ thrown => thrown
    obtain ⟨-, _, no⟩ := thrown
    cases no

/-- A setup wins or throws. -/
theorem setupPin_contends {m : PinManager} {pin : Pin} {tag : TagState}
    (start : t₀ = t.put serves ⟨.absent, tag⟩)
    (fresh : Account.refusal (asBytes pin.str) .absent = none) (inside : i < n)
    (guar : (contender serves t₀ n i final).guar z.1 z.2) (idle : Idle serves t₀ n z.2) :
    Judged serves t₀ n i final (m.setupPin uid pin)
      (fun r z => (r = .ok () ∧ Mine serves t₀ n i
        (t.put serves ⟨.written pin.auth ⟨0, m.policy.maxAttempts⟩, .version PIN_VERSION_CURRENT⟩)
          z.2) ∨
        Throws serves t₀ n i r z) z := by
  unfold PinManager.setupPin
  rw [nvIndexForUid_eq serves, ofResult_ok_bind]
  have read : (exec Tpm.exec (readPinSlotOwner (slotHandle uid serves)) t₀).1 = .ok none := by
    rw [start]
    have whole : exec Tpm.exec (readPinSlotOwner (slotHandle uid serves))
        (t.put serves ⟨.absent, tag⟩) =
        (.ok none, t.put serves ⟨.absent, tag⟩) := exec_eq (wpx_readPinSlotOwner trivial rfl nofun)
    rw [whole]
  refine judged_quiet readPinSlotOwner_quiet read guar idle (fun z guar idle => ?_)
    (fun z existing guar lost => ?_)
    fun z e lost => .inr ⟨lost, e, rfl⟩
  · rw [if_neg nofun]
    refine wpx_bind.2 (Prog.wp_mono (definePinSlot_idle start fresh inside guar idle) ?_)
    rintro r z guar (⟨rfl, mine⟩ | ⟨lost, e, rfl⟩)
    · have there :
          ∀ tag, (t.put serves ⟨.written pin.auth ⟨0, m.policy.maxAttempts⟩, tag⟩).nv
            (slotHandle uid serves) ≠ none := by
        intro tag
        rw [put_slot]
        exact nofun
      have connected :
          wpx (Faulty Tpm.exec fun _ => False)
            (fun t => t.nv (slotHandle uid serves) ≠ none) m.restartContext
            (fun r t'' => r = .ok () ∧
              t'' = t.put serves ⟨.written pin.auth ⟨0, m.policy.maxAttempts⟩, tag⟩)
            (t.put serves ⟨.written pin.auth ⟨0, m.policy.maxAttempts⟩, tag⟩) :=
        wpx_ofTss (wpx_tpm rfl (there tag) (there tag) ⟨rfl, rfl⟩ nofun)
      have tagged :
          wpx (Faulty Tpm.exec fun _ => False) (fun t => t.nv (slotHandle uid serves) ≠ none)
            (attempt (writePinVersionTag uid PIN_VERSION_CURRENT) : PinM (PinResult Unit))
            (fun r t'' => r = .ok (.ok ()) ∧ t'' = t.put serves
              ⟨.written pin.auth ⟨0, m.policy.maxAttempts⟩, .version PIN_VERSION_CURRENT⟩)
            (t.put serves ⟨.written pin.auth ⟨0, m.policy.maxAttempts⟩, tag⟩) :=
        wpx_attempt.2 (wpx_writePinVersionTag (fun tag _ => there tag) ⟨rfl, rfl⟩ fun _ _ no => no.elim)
      refine judged_mine connected guar mine fun z guar mine => ?_
      exact judged_mine tagged guar mine fun z guar mine => ⟨guar, .inl ⟨rfl, mine⟩⟩
    · exact ⟨guar, .inr ⟨lost, e, rfl⟩⟩
  · exact wpx_mono (setup_lost guar lost existing) fun _ _ _ thrown => .inr thrown

/-! ## The winner -/

theorem contender_refl : (contender serves t₀ n i final).rely x x :=
  fun fair => ⟨fair,
    fun _ => rfl, fun _ _ owned => owned, fun none_ owned => nomatch none_.symm.trans owned⟩

theorem contender_trans {z : Contest} (first : (contender serves t₀ n i final).rely x y)
    (second : (contender serves t₀ n i final).rely y z) : (contender serves t₀ n i final).rely x z := by
  intro fair
  obtain ⟨fair', own, kept, other⟩ := first fair
  obtain ⟨fair'', own', kept', other'⟩ := second fair'
  refine ⟨fair'', fun owned => ?_, fun j ne owned => kept' j ne (kept j ne owned), fun none_ => ?_⟩
  · have same := own owned
    subst same
    exact own' owned
  · cases owner : y.owner with
    | none => exact other' owner
    | some j =>
      have ne : j ≠ i := fun same => other none_ (same ▸ owner)
      rw [kept' j ne owner]
      exact fun same => ne (Option.some.inj same)

theorem contender_compatible {j : Nat} {final' : Tpm} (ne : i ≠ j)
    (guar : (contender serves t₀ n i final).guar x y) :
    (contender serves t₀ n j final').rely x y := by
  intro fair
  obtain ⟨fair', own, others, made⟩ := guar fair
  refine ⟨fair', fun owned => others j (Ne.symm ne) owned, fun k _ owned => ?_, fun none_ => ?_⟩
  · by_cases same : k = i
    · subst same
      exact own owned
    · rw [others k same owned]
      exact owned
  · rcases made none_ with same | owned
    · rw [same, none_]
      exact nofun
    · rw [owned]
      exact fun same => ne (Option.some.inj same)

theorem contender_moves {c : NvCmd} {r : Answer c} {s : Tpm} (act : Tpm.exec c x.tpm = (r, s)) :
    ∃ y : Contest, y.tpm = s ∧ (contender serves t₀ n i final).acts c x r y :=
  ⟨⟨s, if x.tpm.nv (slotHandle uid serves) = none ∧ s.nv (slotHandle uid serves) ≠ none then some i
    else x.owner⟩, rfl, act, rfl⟩

/-- A step after which its process is not the owner has no effect. -/
theorem loser_still (guar : (contender serves t₀ n i final).guar x y) (fair : x.Fair serves t₀ n)
    (lost : y.owner ≠ some i) : y = x := by
  obtain ⟨-, own, others, made⟩ := guar fair
  cases owned : x.owner with
  | none => exact (made owned).resolve_right lost
  | some j =>
    by_cases same : j = i
    · exact absurd (own (same ▸ owned)) lost
    · exact others j same owned

/-- The owner stays the owner. -/
theorem contest_chain {contract : Nat → Contract NvCmd Contest Reply} {finals : Nat → Tpm}
    (contracts : ∀ i, contract i = contender serves t₀ n i (finals i)) {m : Nat}
    (chain : Relation.ReflTransGen (fun x y => ∃ i, i < m ∧ (contract i).guar x y) x y)
    (fair : x.Fair serves t₀ n) :
    y.Fair serves t₀ n ∧ ∀ j, x.owner = some j → y.owner = some j := by
  induction chain with
  | refl => exact ⟨fair, fun _ => id⟩
  | tail _ step ih =>
    obtain ⟨fair, kept⟩ := ih
    obtain ⟨i, -, guar⟩ := step
    rw [contracts i] at guar
    obtain ⟨fair', own, others, -⟩ := guar fair
    refine ⟨fair', fun j owned => ?_⟩
    by_cases same : j = i
    · exact same ▸ own (same ▸ kept j owned)
    · rw [others j same (kept j owned)]
      exact kept j owned

/-- The processes of a contest. -/
def setups (uid : UInt32) (procs : List (PinManager × Pin)) : List (Prog NvCmd Reply) :=
  procs.map fun x => (Request.setupPin x.2).program x.1 uid

/-- What the setup of one process makes of an account without a slot. -/
def Tpm.setUp (t : Tpm) (serves : Serves uid) (x : PinManager × Pin) : Tpm :=
  t.put serves ⟨.written x.2.auth ⟨0, x.1.policy.maxAttempts⟩, .version PIN_VERSION_CURRENT⟩

theorem setup_keeps {m : PinManager} {pin : Pin} {tag : TagState}
    (start : t₀ = t.put serves ⟨.absent, tag⟩)
    (fresh : Account.refusal (asBytes pin.str) .absent = none) (inside : i < n)
    (idle : Idle serves t₀ n x) :
    (contender serves t₀ n i (t.setUp serves (m, pin))).Keeps
      ((Request.setupPin pin).program m uid) x := by
  refine ⟨(x, x), ?_, contender_refl⟩
  refine Prog.wp_seq (setupPin_contends start fresh inside guar_self idle) ?_
  rintro r z guar (⟨rfl, mine⟩ | ⟨lost, e, rfl⟩)
  · refine ⟨guar, fun y relied fair => ?_⟩
    rw [mine_rely mine relied, mine.2]
    exact .inl ⟨rfl, rfl, rfl⟩
  · refine ⟨guar, fun y relied fair => ?_⟩
    obtain ⟨-, j, other, owned⟩ := lost_stable lost relied
    exact .inr ⟨j, e, other, owned, rfl⟩

end Contest

section Winner

variable {uid : UInt32} {t t' : Tpm} {procs : List (PinManager × Pin)}
  {events : List (Nat × Event NvCmd Tpm)} {results : List (PinResult Unit)}

/-- Without an index every setup is refused before its first command. -/
theorem setups_overflow (past : ¬ Serves uid)
    (run : Pool.Steps Tpm.exec.graph (setups uid procs) t events
      (results.map fun r => .ret (.setupPin r)) t') :
    (∀ r ∈ results, r = .error (.uidOverflow uid)) ∧ events = [] ∧ t' = t := by
  have returned : setups uid procs =
      (procs.map fun _ => Reply.setupPin (.error (.uidOverflow uid))).map .ret := by
    rw [List.map_map]
    exact List.map_congr_left fun x _ => request_overflow past
  rw [returned] at run
  obtain ⟨same, none_, still⟩ := run.of_ret
  refine ⟨fun r member => ?_, none_, still⟩
  have among : (Prog.ret (.setupPin r) : Prog NvCmd Reply) ∈ results.map fun r => .ret (.setupPin r) :=
    List.mem_map.2 ⟨r, member, rfl⟩
  rw [same, List.map_map] at among
  obtain ⟨x, -, told⟩ := List.mem_map.1 among
  exact (Reply.setupPin.inj (Prog.ret.inj told)).symm

/-- However the commands of the setups are interleaved, once all have finished exactly one
has returned `Ok`: the TPM is as that one alone would have left it, and no command of
another had an effect. A uid without an index has no winner. -/
theorem setup_has_one_winner (start : ∀ serves : Serves uid, ∃ tag, t.Shows serves ⟨.absent, tag⟩)
    (some_ : procs ≠ []) (accepted : ∀ x ∈ procs, Account.refusal (asBytes x.2.str) .absent = none)
    (run : Pool.Steps Tpm.exec.graph (setups uid procs) t events
      (results.map fun r => .ret (.setupPin r)) t') :
    (∀ serves : Serves uid, ∃ w x, procs[w]? = some x ∧ results[w]? = some (.ok ()) ∧
      (∀ j r, j ≠ w → results[j]? = some r → ∃ e, r = .error e) ∧ t' = t.setUp serves x ∧
      ∀ j event, (j, event) ∈ events → j ≠ w → event.after = event.before) ∧
    (¬ Serves uid → (∀ r ∈ results, r = .error (.uidOverflow uid)) ∧ events = [] ∧ t' = t) := by
  constructor
  · intro serves
    obtain ⟨tag, shows_⟩ := start serves
    have same : t = t.put serves ⟨.absent, tag⟩ := shows_.eq_put.symm
    let finals : Nat → Tpm := fun i => (procs[i]?.map (t.setUp serves)).getD t
    have idle : Idle serves t procs.length ⟨t, none⟩ :=
      ⟨⟨fun _ => rfl, fun no => absurd rfl no, nofun⟩, rfl⟩
    have begins : ∀ i p, (setups uid procs)[i]? = some p →
        (contender serves t procs.length i (finals i)).Keeps p (⟨t, none⟩ : Contest) := by
      intro i p at_
      obtain ⟨proc, member, rfl⟩ :
        ∃ proc, procs[i]? = some proc ∧ (Request.setupPin proc.2).program proc.1 uid = p := by
        simpa [setups] using at_
      have fresh := accepted proc (List.mem_of_getElem? member)
      have final : finals i = t.setUp serves proc := by
        simp only [finals, member, Option.map_some, Option.getD_some]
      rw [final]
      exact setup_keeps same fresh (List.getElem?_eq_some_iff.1 member).1 idle
    obtain ⟨x, rfl, kept, chain, each⟩ :=
      @Pool.Steps.keeps NvCmd Tpm Contest Reply _ Tpm.exec.graph _ _ _ _ _ Contest.tpm
        (fun i => contender serves t procs.length i (finals i)) (fun _ => True)
        (fun _ _ => contender_refl)
        (fun _ _ _ _ => contender_trans) (fun _ _ _ _ _ act _ => contender_moves act)
        (fun _ _ ne _ _ => contender_compatible ne) run (fun _ _ => trivial) _ rfl begins
    have contracts : ∀ i, (fun i => contender serves t procs.length i (finals i)) i =
        contender serves t procs.length i (finals i) := fun _ => rfl
    obtain ⟨fair, -⟩ := contest_chain contracts chain idle.1
    have ended : ∀ i r, results[i]? = some r → (x.owner = some i ∧ r = .ok () ∧ x.tpm = finals i) ∨
        ∃ j e, j ≠ i ∧ x.owner = some j ∧ r = .error e := by
      intro i r at_
      have done := (kept i (.ret (.setupPin r)) (by simp [at_])).ret fair
      rcases done with ⟨owned, told, final⟩ | ⟨j, e, other, owned, told⟩
      · exact .inl ⟨owned, Reply.setupPin.inj told, final⟩
      · exact .inr ⟨j, e, other, owned, Reply.setupPin.inj told⟩
    have lengths : results.length = procs.length := by
      have same := run.length
      simpa [setups] using same
    -- the first process has an end, so there is an owner
    obtain ⟨w, owner⟩ : ∃ w, x.owner = some w := by
      have first : 0 < results.length := by
        rw [lengths]
        exact List.length_pos_of_ne_nil some_
      rcases ended 0 _ (List.getElem?_eq_getElem first) with ⟨owned, -⟩ | ⟨j, -, -, owned, -⟩
      · exact ⟨0, owned⟩
      · exact ⟨j, owned⟩
    have inside : w < results.length := by
      rw [lengths]
      exact fair.among w owner
    have winner : procs[w]? = some procs[w] := List.getElem?_eq_getElem _
    have final : finals w = t.setUp serves procs[w] := by
      simp only [finals, winner, Option.map_some, Option.getD_some]
    have won := ended w _ (List.getElem?_eq_getElem inside)
    rcases won with ⟨-, told, left⟩ | ⟨j, -, other, owned, -⟩
    swap
    · exact absurd (Option.some.inj (owned.symm.trans owner)) other
    refine ⟨w, procs[w], winner, ?_,
      fun j r other at_ => ?_, left.trans final, fun j event member other => ?_⟩
    · rw [List.getElem?_eq_getElem inside, told]
    · rcases ended j r at_ with ⟨owned, -⟩ | ⟨-, e, -, -, told⟩
      · exact absurd (Option.some.inj (owned.symm.trans owner)) other
      · exact ⟨e, told⟩
    · obtain ⟨y, y', before, after, guar, left, right⟩ := each j event member
      obtain ⟨fair₁, -⟩ := contest_chain contracts left idle.1
      obtain ⟨fair₂, -⟩ := guar fair₁
      obtain ⟨-, stays⟩ := contest_chain contracts right fair₂
      have not_own : y'.owner ≠ some j :=
        fun owned => other (Option.some.inj ((stays j owned).symm.trans owner))
      rw [← after, ← before, loser_still guar fair₁ not_own]
  · exact fun past => setups_overflow past run

/-- Three processes that set up user 1000, the second under a higher limit. -/
def contestants : List (PinManager × Pin) :=
  [(defaultManager, plainPin),
    ({ defaultManager with policy := { PinPolicy.default with maxAttempts := 5 } }, chosenPin),
    (defaultManager, plainPin)]

/-- The first two in turn, the second a few commands ahead, and then the third. -/
def contestTurns : List (Nat × Option Fault) :=
  Pool.inTurn (List.replicate 3 1 ++ (List.range 60).map (· % 2) ++ List.replicate 30 2)

/-- The definition of the first is refused, and the third finds the slot. -/
def contestResults : List (PinResult Unit) :=
  [.error (.ofTss (.tss2 (some .nvDefined))), .ok (), .error (.alreadyProvisioned 1000)]

/-- The second wins, and no command of the others has an effect. -/
theorem setup_won_by_second :
    (Pool.play Tpm.exec contestTurns (setups 1000 contestants) Tpm.empty).2 =
      Tpm.empty.put serves_thousand
        ⟨.written chosenPin.auth ⟨0, 5⟩, .version PIN_VERSION_CURRENT⟩ ∧
    ∀ j event, (j, event) ∈ Pool.events Tpm.exec contestTurns (setups 1000 contestants) Tpm.empty →
      j ≠ 1 → event.after = event.before := by
  have told : (Pool.play Tpm.exec contestTurns (setups 1000 contestants) Tpm.empty).1 =
      contestResults.map fun r => .ret (.setupPin r) := by
    have results : (Pool.play Tpm.exec contestTurns (setups 1000 contestants) Tpm.empty).1.map
        Prog.result? = (contestResults.map Reply.setupPin).map some := by
      decide +kernel
    rw [Pool.eq_ret_of_results results, List.map_map]
    rfl
  have accepted : ∀ x ∈ contestants, Account.refusal (asBytes x.2.str) .absent = none := by
    decide +kernel
  have run := @Pool.steps_play NvCmd Tpm Fault Reply _ _ Tpm.exec contestTurns
    (setups 1000 contestants) Tpm.empty Pool.inTurn_calm
  rw [told] at run
  obtain ⟨won, -⟩ := @setup_has_one_winner 1000 Tpm.empty _ contestants _ contestResults
    (fun _ => ⟨.absent, rfl, rfl⟩) (List.cons_ne_nil _ _) accepted run
  obtain ⟨w, x, proc, result, -, final, others⟩ := won serves_thousand
  have second : w = 1 := by
    rcases w with _ | _ | _ | w
    · cases result
    · rfl
    · cases result
    · cases result
  subst second
  cases proc
  exact ⟨final, others⟩

/-- A uid without an index has no winner. -/
theorem setup_without_winner : ¬ ∀ (uid : UInt32) (t t' : Tpm) (procs : List (PinManager × Pin))
    (events : List (Nat × Event NvCmd Tpm)) (results : List (PinResult Unit)),
    (∀ serves : Serves uid, ∃ tag, t.Shows serves ⟨.absent, tag⟩) → procs ≠ [] →
      (∀ x ∈ procs, Account.refusal (asBytes x.2.str) .absent = none) →
        Pool.Steps Tpm.exec.graph (setups uid procs) t events
          (results.map fun r => .ret (.setupPin r)) t' →
          ∃ w : Nat, results[w]? = some (.ok ()) := by
  intro claim
  have past : ¬ Serves 0x800000 := by decide
  have returned : setups 0x800000 [(defaultManager, plainPin)] =
      [Except.error (.uidOverflow 0x800000)].map fun r => .ret (.setupPin r) := by
    simp only [setups, List.map_cons, List.map_nil, request_overflow past, Request.refused]
  obtain ⟨w, won⟩ :=
    claim 0x800000 Tpm.empty Tpm.empty [(defaultManager, plainPin)] [] [.error (.uidOverflow 0x800000)]
      (fun serves => absurd serves past) nofun (by
        intro x member
        rw [List.mem_singleton.1 member]
        decide +kernel) (returned ▸ .stopped _ _)
  have member := List.mem_of_getElem? won
  simp at member

end Winner

end Pinpam
