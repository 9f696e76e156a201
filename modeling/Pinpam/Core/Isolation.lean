import Pinpam.Core.Locality
import Pinpam.Effect.Schedule

/-!
# Users beside each other

Processes of several users share the TPM, any command of which may fail. What is done
for one user is not seen by another: without it the other is told the same and is left
with the same slot and tag.
-/

namespace Pinpam
set_option autoImplicit false
open Pinpam.Effect Pinpam.Effect.Fallible

/-- A request for a user, under the manager of a policy. -/
structure Job where
  uid : UInt32
  manager : PinManager
  request : Request

def Job.program (job : Job) : Prog NvCmd Reply := job.request.program job.manager job.uid

/-- The process with the number is one of the user. -/
def servesUser (jobs : List Job) (uid : UInt32) (i : Nat) : Bool :=
  match jobs[i]? with
  | some job => decide (job.uid = uid)
  | none => false

/-- The two TPMs agree on every index that is not one of the user. -/
def Tpm.AgreeBut (uid : UInt32) (t u : Tpm) : Prop :=
  ∀ i, (∀ serves : Serves uid, i ≠ slotHandle uid serves ∧ i ≠ tagHandle uid serves) → t.nv i = u.nv i

section Isolation

variable {a b : UInt32} {t u : Tpm} {c : NvCmd} {jobs : List Job} {schedule : List (Nat × Option Fault)}

/-- An index of one user is none of another. -/
theorem other_index {i : NvIndexTpmHandle} (other : a ≠ b) (serves : Serves b)
    (named : i = slotHandle b serves ∨ i = tagHandle b serves) (serves' : Serves a) :
    i ≠ slotHandle a serves' ∧ i ≠ tagHandle a serves' := by
  rcases named with rfl | rfl
  · exact ⟨fun same => other (slotHandle_inj.1 same).symm, slotHandle_ne_tagHandle⟩
  · exact ⟨slotHandle_ne_tagHandle.symm, fun same => other (tagHandle_inj.1 same).symm⟩

/-- A command for the user changes nothing the others look at. -/
theorem AgreeBut.blind (own : c.Of a) (agree : t.AgreeBut a u) : (Tpm.exec c t).2.AgreeBut a u := by
  intro i outside
  rw [exec_frame]
  · exact agree i outside
  · intro named
    obtain ⟨serves, mine⟩ := own i named
    obtain ⟨slot, tag⟩ := outside serves
    exact mine.elim slot tag

/-- A command for another user is answered alike, and has the same effect. -/
theorem AgreeBut.alike (own : ∃ b, b ≠ a ∧ c.Of b) (agree : t.AgreeBut a u) :
    (Tpm.exec c t).1 = (Tpm.exec c u).1 ∧ (Tpm.exec c t).2.AgreeBut a (Tpm.exec c u).2 := by
  obtain ⟨b, other, of⟩ := own
  have named : ∀ i, c.index = some i → t.nv i = u.nv i := by
    intro i named
    obtain ⟨serves, mine⟩ := of i named
    exact agree i (other_index other.symm serves mine)
  obtain ⟨answer, effect⟩ := exec_local named
  exact ⟨answer, fun i outside => effect i (agree i outside)⟩

theorem servesUser_other {i : Nat} (other : a ≠ b) (own : servesUser jobs b i = true) :
    servesUser jobs a i = false := by
  unfold servesUser at own ⊢
  cases at_ : jobs[i]? with
  | none => rfl
  | some job =>
    rw [at_] at own
    have same := of_decide_eq_true own
    exact decide_eq_false fun same' => other (same'.symm.trans same)

/-- The processes of the user and those of the others, by the indices they name. -/
theorem jobs_confined : Pool.Confined (servesUser jobs a) (NvCmd.Of a) (fun c => ∃ b, b ≠ a ∧ c.Of b)
    (jobs.map Job.program) := by
  intro i p at_
  obtain ⟨job, member, rfl⟩ : ∃ job, jobs[i]? = some job ∧ job.program = p := by simpa using at_
  have of : job.program.Only (NvCmd.Of job.uid) := request_of
  by_cases own : job.uid = a
  · have hidden : servesUser jobs a i = true := by simp [servesUser, member, own]
    simp only [hidden, if_true]
    exact own ▸ of
  · have shown : servesUser jobs a i = false := by simp [servesUser, member, own]
    simp only [shown, Bool.false_eq_true, if_false]
    exact Prog.only_mono of fun c named => ⟨job.uid, own, named⟩

/-- However the commands are interleaved and whichever fail, the processes of a user go
and end as they do when all of another user are left out, and so do the slot and the tag.
A uid that either index map rejects is told so, and no command is sent. -/
theorem users_isolated (other : a ≠ b) (jobs : List Job) (schedule : List (Nat × Option Fault))
    (t : Tpm) :
    (let whole := Pool.play Tpm.exec schedule (jobs.map Job.program) t
     let without :=
       Pool.play Tpm.exec (schedule.filter fun x => !servesUser jobs a x.1) (jobs.map Job.program) t
     (∀ i : Nat, servesUser jobs b i = true → whole.1[i]? = without.1[i]?) ∧
       ∀ serves : Serves b, whole.2.nv (slotHandle b serves) = without.2.nv (slotHandle b serves) ∧
         whole.2.nv (tagHandle b serves) = without.2.nv (tagHandle b serves)) ∧
    ∀ uid, (∃ e, nvIndexForUid uid = .error e) ∨ (∃ e, versionNvIndexForUid uid = .error e) →
      ∀ (m : PinManager) (request : Request), request.program m uid =
        .ret (request.refused (.uidOverflow uid)) := by
  constructor
  · have same : t.AgreeBut a t := fun _ _ => rfl
    obtain ⟨programs, indices⟩ :=
      @Pool.play_hidden NvCmd Tpm Fault Reply _ _ Tpm.exec schedule _ t (Tpm.AgreeBut a) _ _ _ _ t
        (fun _ _ _ => AgreeBut.blind) (fun _ _ _ => AgreeBut.alike) jobs_confined (fun _ _ => rfl) same
    refine ⟨fun i own => programs i (servesUser_other other own), fun serves => ⟨?_, ?_⟩⟩
    · exact indices _ (other_index other serves (.inl rfl))
    · exact indices _ (other_index other serves (.inr rfl))
  · rintro uid rejected m request
    apply request_overflow
    intro serves
    rcases rejected with ⟨e, rejected⟩ | ⟨e, rejected⟩
    · rw [nvIndexForUid_eq serves] at rejected
      cases rejected
    · rw [versionNvIndexForUid_eq serves] at rejected
      cases rejected

/-- A setup beside the deletion of another user. -/
def neighbours : List Job :=
  [⟨1000, defaultManager, .setupPin plainPin⟩, ⟨1001, defaultManager, .deletePinAdmin⟩]

/-- In turn to the end of both, but the second command of the deletion fails. -/
def neighbourTurns : List (Nat × Option Fault) :=
  [(0, none), (1, none), (0, none), (1, some ⟨0⟩)] ++ Pool.inTurn ((List.range 60).map (· % 2))

theorem users_isolated_once :
    let whole := Pool.play Tpm.exec neighbourTurns (neighbours.map Job.program) Tpm.empty
    let without := Pool.play Tpm.exec
      (neighbourTurns.filter fun x => !servesUser neighbours 1001 x.1)
      (neighbours.map Job.program) Tpm.empty
    (∀ p ∈ whole.1, p.result?.isSome = true) ∧ whole.1[0]? = without.1[0]? ∧
      whole.2.nv (slotHandle 1000 serves_thousand) =
        without.2.nv (slotHandle 1000 serves_thousand) ∧
      whole.2.nv (tagHandle 1000 serves_thousand) =
        without.2.nv (tagHandle 1000 serves_thousand) := by
  have different : (1001 : UInt32) ≠ 1000 := by decide
  obtain ⟨programs, indices⟩ :=
    (users_isolated different neighbours neighbourTurns Tpm.empty).1
  exact ⟨by decide +kernel, programs 0 rfl, indices serves_thousand⟩

end Isolation

end Pinpam
