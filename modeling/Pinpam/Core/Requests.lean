import Pinpam.Core.Calls

/-!
# Requests

The operations a caller asks the manager for, with what it is told. A turn serves one
request to its end, or up to the command before which its process is killed; a list of
turns is a run of the system.
-/

namespace Pinpam
set_option autoImplicit false
open Pinpam.Effect Pinpam.Effect.Fallible

inductive Request where
  | setupPin (pin : Pin)
  | verifyPin (pin : Pin)
  | deletePinWithAuth (pin : Pin)
  | deletePinAdmin
  | isLockedOut
  | getPinSlot

/-- The result of a request, as the operation returns it. -/
inductive Reply where
  | setupPin (r : PinResult Unit)
  | verifyPin (r : PinResult VerificationResult)
  | deletePinWithAuth (r : PinResult DeleteResult)
  | deletePinAdmin (r : PinResult Unit)
  | isLockedOut (r : PinResult Bool)
  | getPinSlot (r : PinResult (Option PinData))
  deriving DecidableEq

def Request.program (m : PinManager) (uid : UInt32) : Request → Prog NvCmd Reply
  | .setupPin pin => (m.setupPin uid pin).run >>= fun r => .ret (.setupPin r)
  | .verifyPin pin => (m.verifyPin uid pin).run >>= fun r => .ret (.verifyPin r)
  | .deletePinWithAuth pin => (m.deletePinWithAuth uid pin).run >>= fun r => .ret (.deletePinWithAuth r)
  | .deletePinAdmin => (Pinpam.deletePinAdmin uid).run >>= fun r => .ret (.deletePinAdmin r)
  | .isLockedOut => (Pinpam.isLockedOut uid).run >>= fun r => .ret (.isLockedOut r)
  | .getPinSlot => (Pinpam.getPinSlot uid).run >>= fun r => .ret (.getPinSlot r)

/-- The request on an account of a TPM that fails no command. -/
def Account.serve (uid limit : UInt32) (acc : Account) : Request → Reply × Account
  | .setupPin pin => ((acc.setupPin uid pin limit).map .setupPin id)
  | .verifyPin pin => ((acc.verifyPin uid pin limit).map .verifyPin id)
  | .deletePinWithAuth pin => ((acc.deletePinWithAuth uid pin limit).map .deletePinWithAuth id)
  | .deletePinAdmin => ((acc.deletePinAdmin uid).map .deletePinAdmin id)
  | .isLockedOut => (.isLockedOut (.ok ((acc.slot.data.map PinData.atLimit).getD false)), acc)
  | .getPinSlot => (.getPinSlot (.ok acc.slot.data), acc)

/-- The request failed. -/
def Request.refused (e : PinError) : Request → Reply
  | .setupPin _ => .setupPin (.error e)
  | .verifyPin _ => .verifyPin (.error e)
  | .deletePinWithAuth _ => .deletePinWithAuth (.error e)
  | .deletePinAdmin => .deletePinAdmin (.error e)
  | .isLockedOut => .isLockedOut (.error e)
  | .getPinSlot => .getPinSlot (.error e)

def ManagerCall.request : ManagerCall → Request
  | .setupPin pin => .setupPin pin
  | .verifyPin pin => .verifyPin pin
  | .deletePinWithAuth pin => .deletePinWithAuth pin
  | .deletePinAdmin => .deletePinAdmin

/-- The accounts a request passes through. -/
inductive Request.Visits (uid limit : UInt32) (acc : Account) : Request → Account → Prop where
  | calls {call : ManagerCall} {a : Account} (visits : call.Visits uid limit acc a) :
      Visits uid limit acc call.request a
  | isLockedOut : Visits uid limit acc .isLockedOut acc
  | getPinSlot : Visits uid limit acc .getPinSlot acc

/-- The PIN a request presents to a slot. -/
def Request.presents : Request → Option Pin
  | .verifyPin pin | .deletePinWithAuth pin => some pin
  | _ => none

section Requests

variable {uid : UInt32} {serves : Serves uid} {t : Tpm} {acc : Account} {m : PinManager}
  {request : Request}

theorem wpx_isLockedOut {P C : Tpm → Prop} {Q : Except PinError Bool → Tpm → Prop}
    (crash : C (t.put serves acc))
    (done : Q (.ok ((acc.slot.data.map PinData.atLimit).getD false)) (t.put serves acc))
    (failed : P (t.put serves acc) → ∀ f : Fault, Q (.error (.ofTss f.error)) (t.put serves acc)) :
    wpx (Faulty Tpm.exec P) C (isLockedOut uid) Q (t.put serves acc) := by
  unfold isLockedOut
  rw [nvIndexForUid_eq serves]
  refine wpx_bind.2 ⟨crash,
    wpx_bind.2 (wpx_readPinSlotOwner crash ?_ fun may f => ⟨crash, failed may f⟩)⟩
  cases data : acc.slot.data with
  | none =>
    rw [data] at done
    exact ⟨crash, done⟩
  | some slot =>
    rw [data] at done
    exact ⟨crash, done⟩

theorem isLockedOut_overflow (past : ¬ Serves uid) : isLockedOut uid = throw (.uidOverflow uid) := by
  unfold isLockedOut
  rw [nvIndexForUid_overflow past]
  rfl

/-- Each request is its function on the account. -/
theorem run_request : (request.program m uid).run Tpm.exec (t.put serves acc) =
    ((acc.serve uid m.policy.maxAttempts request).1,
      t.put serves (acc.serve uid m.policy.maxAttempts request).2) := by
  have mapped : ∀ {α : Type} {x : PinM α} {f : PinResult α → Reply} {r : PinResult α × Account},
      exec Tpm.exec x (t.put serves acc) = (r.1, t.put serves r.2) →
        (x.run >>= fun r => Prog.ret (f r)).run Tpm.exec (t.put serves acc) =
        (f r.1, t.put serves r.2) := by
    intro α x f r run
    have plain : x.run.run Tpm.exec (t.put serves acc) = (r.1, t.put serves r.2) := run
    rw [Prog.run_bind, plain]
    rfl
  cases request with
  | setupPin pin => exact mapped exec_setupPin
  | verifyPin pin => exact mapped exec_verifyPin
  | deletePinWithAuth pin => exact mapped exec_deletePinWithAuth
  | deletePinAdmin => exact mapped exec_deletePinAdmin
  | isLockedOut =>
    exact @mapped _ _ _ (_, acc) (exec_eq (wpx_isLockedOut trivial rfl fun no => False.elim no))
  | getPinSlot =>
    exact @mapped _ _ _ (_, acc) (exec_eq (wpx_getPinSlot trivial rfl fun no => False.elim no))

/-- Whatever fails, a request ends in an account it passes through, and is only killed in
one. -/
theorem wp_request {P C : Tpm → Prop}
    (crash : ∀ a, request.Visits uid m.policy.maxAttempts acc a → C (t.put serves a)) :
    (request.program m uid).wp (Faulty Tpm.exec P) C
      (fun _ t' => ∃ a, request.Visits uid m.policy.maxAttempts acc a ∧ t' = t.put serves a)
      (t.put serves acc) := by
  cases request with
  | setupPin pin =>
    refine Prog.wp_seq (@wpx_call uid serves P C t acc m (.setupPin pin) fun a v =>
      crash a (.calls v)) ?_
    rintro r _ crash ⟨a, visits, rfl⟩
    exact ⟨crash, a, .calls visits, rfl⟩
  | verifyPin pin =>
    refine Prog.wp_seq
      (verifyPin_visits fun a v =>
        crash a (@Request.Visits.calls _ _ _ (.verifyPin pin) _ (.verifies v))) ?_
    rintro r _ crash ⟨a, visits, rfl⟩
    exact ⟨crash, a, @Request.Visits.calls _ _ _ (.verifyPin pin) _ (.verifies visits), rfl⟩
  | deletePinWithAuth pin =>
    refine Prog.wp_seq (deletePinWithAuth_visits fun a d =>
      crash a (@Request.Visits.calls _ _ _ (.deletePinWithAuth pin) _ (.deletes d))) ?_
    rintro r _ crash ⟨a, deletes, rfl⟩
    exact ⟨crash, a, @Request.Visits.calls _ _ _ (.deletePinWithAuth pin) _ (.deletes deletes), rfl⟩
  | deletePinAdmin =>
    refine Prog.wp_seq (@wpx_call uid serves P C t acc m .deletePinAdmin fun a v =>
      crash a (.calls v)) ?_
    rintro r _ crash ⟨a, visits, rfl⟩
    exact ⟨crash, a, .calls visits, rfl⟩
  | isLockedOut =>
    have here := crash acc .isLockedOut
    exact Prog.wp_seq (wpx_isLockedOut here rfl fun _ _ => rfl) fun r t' crash same =>
      ⟨crash, acc, .isLockedOut, same⟩
  | getPinSlot =>
    have here := crash acc .getPinSlot
    exact Prog.wp_seq (wpx_getPinSlot here rfl fun _ _ => rfl) fun r t' crash same =>
      ⟨crash, acc, .getPinSlot, same⟩

/-- A uid without an index: the request sends nothing. -/
theorem request_overflow (past : ¬ Serves uid) :
    request.program m uid = .ret (request.refused (.uidOverflow uid)) := by
  have thrown : ∀ {α : Type} {x : PinM α} {f : PinResult α → Reply}, x = throw (.uidOverflow uid) →
      (x.run >>= fun r => Prog.ret (f r)) = Prog.ret (f (.error (.uidOverflow uid))) := by
    intro α x f same
    rw [same]
    rfl
  cases request with
  | setupPin pin => exact thrown (setupPin_overflow past)
  | verifyPin pin => exact thrown (verifyPin_overflow past)
  | deletePinWithAuth pin => exact thrown (deletePinWithAuth_overflow past)
  | deletePinAdmin => exact thrown (deletePinAdmin_overflow past)
  | isLockedOut => exact thrown (isLockedOut_overflow past)
  | getPinSlot => exact thrown (getPinSlot_overflow past)

end Requests

/-! ## Runs of one user -/

/-- A request under the manager of a policy; `cut` kills its process with so many
commands made. -/
structure Turn where
  manager : PinManager
  request : Request
  cut : Option Nat

/-- A turn that was taken: there is no reply from a process that was killed. -/
structure Served where
  turn : Turn
  before : Tpm
  reply : Option Reply
  after : Tpm

def Turn.take (turn : Turn) (uid : UInt32) (t : Tpm) : Served :=
  let program := turn.request.program turn.manager uid
  match turn.cut with
  | none => ⟨turn, t, some (program.run Tpm.exec t).1, (program.run Tpm.exec t).2⟩
  | some n => ⟨turn, t, none, program.after Tpm.exec n t⟩

/-- The turns of a run, one after the other. -/
def serve (uid : UInt32) : List Turn → Tpm → List Served
  | [], _ => []
  | turn :: turns, t => turn.take uid t :: serve uid turns (turn.take uid t).after

section Turns

variable {uid : UInt32} {turn : Turn} {turns : List Turn} {t : Tpm} {pre post : List Served}
  {x : Served}

@[simp] theorem take_turn : (turn.take uid t).turn = turn := by
  unfold Turn.take
  cases turn.cut <;> rfl

@[simp] theorem take_before : (turn.take uid t).before = t := by
  unfold Turn.take
  cases turn.cut <;> rfl

/-- A turn that returned ran its program to the end. -/
theorem take_replied {reply : Reply} (replied : (turn.take uid t).reply = some reply) :
    (turn.request.program turn.manager uid).run Tpm.exec t = (reply, (turn.take uid t).after) := by
  unfold Turn.take at replied ⊢
  cases cut : turn.cut with
  | none =>
    rw [cut] at replied
    simp only [Option.some.injEq] at replied
    rw [← replied]
  | some n =>
    rw [cut] at replied
    cases replied

/-- A turn that is not cut, on an account. -/
theorem take_whole {serves : Serves uid} {acc : Account} {m : PinManager} {request : Request} :
    Turn.take ⟨m, request, none⟩ uid (t.put serves acc) =
      ⟨⟨m, request, none⟩, t.put serves acc, some (acc.serve uid m.policy.maxAttempts request).1,
        t.put serves (acc.serve uid m.policy.maxAttempts request).2⟩ := by
  simp only [Turn.take, run_request]

/-- What holds wherever a request is cut holds after the turn. -/
theorem take_of_wp {Q : Tpm → Prop}
    (pre : (turn.request.program turn.manager uid).wp (Faulty Tpm.exec fun _ => False) Q
      (fun _ t' => Q t') t) :
    Q (turn.take uid t).after := by
  unfold Turn.take
  cases turn.cut with
  | none => exact Prog.wp_run (Tpm.exec.within_faulty _) pre
  | some n => exact Prog.wp_after (Tpm.exec.within_faulty _) n pre

/-- What every turn keeps holds before each, and the rest of the run starts where the turn
ended. -/
theorem serve_split {I : Tpm → Prop} (keeps : ∀ turn ∈ turns, ∀ t, I t → I (turn.take uid t).after)
    (start : I t) (split : serve uid turns t = pre ++ x :: post) :
    ∃ turn ∈ turns, I x.before ∧ x = turn.take uid x.before ∧
      ∃ later, (∀ turn ∈ later, turn ∈ turns) ∧ post = serve uid later x.after := by
  induction turns generalizing pre t with
  | nil => cases pre <;> cases split
  | cons first turns ih =>
    cases pre with
    | nil =>
      obtain ⟨rfl, rfl⟩ := List.cons.inj split
      refine ⟨first, List.mem_cons_self, ?_, ?_, turns, fun _ => List.mem_cons_of_mem _, rfl⟩
      · rw [take_before]
        exact start
      · rw [take_before]
    | cons y pre =>
      obtain ⟨-, rest⟩ := List.cons.inj split
      obtain ⟨turn, member, held, taken, later, among, tail⟩ :=
        ih (fun turn member => keeps turn (List.mem_cons_of_mem _ member))
          (keeps first List.mem_cons_self t start) rest
      exact ⟨turn, List.mem_cons_of_mem _ member, held, taken, later,
        fun z member => List.mem_cons_of_mem _ (among z member), tail⟩

end Turns

end Pinpam
