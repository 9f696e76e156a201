import Mathlib.Data.List.Basic
import Mathlib.Logic.Function.Basic

/-!
# Services

A service takes requests one after the other; each has an answer and leaves a state. A
service refines another if related states answer alike and stay related. Services stand
side by side where each request is for one of them, and then none is seen by the others.
-/

namespace Pinpam.Effect
set_option autoImplicit false

/-- What a request is answered with, and the state that it leaves. -/
abbrev Service (ι σ ο : Type) := ι → σ → ο × σ

namespace Service

variable {ι σ τ ο U : Type}

/-- One request after the other. -/
def all (f : Service ι σ ο) : List ι → σ → List ο × σ
  | [], s => ([], s)
  | i :: rest, s => ((f i s).1 :: (all f rest (f i s).2).1, (all f rest (f i s).2).2)

/-- On the requests that are valid, related states answer alike and stay related. -/
def Refines (f : Service ι σ ο) (g : Service ι τ ο) (related : σ → τ → Prop) (valid : ι → Prop) :
    Prop :=
  ∀ i s a, valid i → related s a → (f i s).1 = (g i a).1 ∧ related (f i s).2 (g i a).2

section Runs

variable {f : Service ι σ ο} {g : Service ι τ ο} {related : σ → τ → Prop} {valid : ι → Prop}
  {requests : List ι} {s : σ} {a : τ}

/-- And so do whole runs. -/
theorem Refines.all (refines : Refines f g related valid) (each : ∀ i ∈ requests, valid i)
    (start : related s a) :
    (all f requests s).1 = (all g requests a).1 ∧
    related (Service.all f requests s).2 (Service.all g requests a).2 := by
  induction requests generalizing s a with
  | nil => exact ⟨rfl, start⟩
  | cons i rest ih =>
    obtain ⟨first, others⟩ := List.forall_mem_cons.1 each
    obtain ⟨answer, next⟩ := refines i s a first start
    obtain ⟨answers, final⟩ := ih others next
    exact ⟨congrArg₂ List.cons answer answers, final⟩

end Runs

/-! ## Side by side -/

section Beside

variable [DecidableEq U]

/-- A service for each user: a request goes to the one of its user, and has a fixed answer
if it is nobody's. -/
def beside (whose : ι → Option U) (f : U → Service ι σ ο) (nobody : ι → ο) :
    Service ι (U → σ) ο := fun i s =>
  match whose i with
  | some u => ((f u i (s u)).1, Function.update s u (f u i (s u)).2)
  | none => (nobody i, s)

/-- The requests of a user. -/
def requestsOf (whose : ι → Option U) (u : U) (requests : List ι) : List ι :=
  requests.filter fun i => whose i = some u

/-- The answers to the requests of a user. -/
def answersTo (whose : ι → Option U) (u : U) (requests : List ι) (answers : List ο) : List ο :=
  ((requests.zip answers).filter fun x => whose x.1 = some u).map Prod.snd

variable {whose : ι → Option U} {f : U → Service ι σ ο} {nobody : ι → ο} {u u' : U} {i : ι}
  {requests : List ι} {s : U → σ}

theorem beside_own (own : whose i = some u) : beside whose f nobody i s =
    ((f u i (s u)).1, Function.update s u (f u i (s u)).2) := by
  simp only [beside, own]

/-- A request of others leaves the user's state. -/
theorem beside_other (other : whose i ≠ some u) : (beside whose f nobody i s).2 u = s u := by
  unfold beside
  cases named : whose i with
  | none => rfl
  | some u' =>
    have ne : u ≠ u' := by
      rintro rfl
      exact other named
    exact Function.update_of_ne ne _ _

/-- A user sees what the own service makes of the own requests. -/
theorem all_beside :
    answersTo whose u requests (all (beside whose f nobody) requests s).1 =
        (all (f u) (requestsOf whose u requests) (s u)).1 ∧
      (all (beside whose f nobody) requests s).2 u =
        (all (f u) (requestsOf whose u requests) (s u)).2 := by
  induction requests generalizing s with
  | nil => exact ⟨rfl, rfl⟩
  | cons i rest ih =>
    obtain ⟨answers, final⟩ := @ih (beside whose f nobody i s).2
    unfold answersTo requestsOf at answers ⊢
    by_cases own : whose i = some u
    · have next : (beside whose f nobody i s).2 u = (f u i (s u)).2 := by
        rw [beside_own own]
        exact Function.update_self u _ _
      rw [List.filter_cons_of_pos (by simpa using own)]
      simp only [all, List.zip_cons_cons]
      rw [List.filter_cons_of_pos (by simpa using own), List.map_cons, answers, final, next,
        beside_own own]
      exact ⟨rfl, rfl⟩
    · rw [List.filter_cons_of_neg (by simpa using own)]
      simp only [all, List.zip_cons_cons]
      rw [List.filter_cons_of_neg (by simpa using own), answers, final, beside_other own]
      exact ⟨rfl, rfl⟩

theorem requestsOf_own :
    requestsOf whose u (requestsOf whose u requests) = requestsOf whose u requests := by
  unfold requestsOf
  rw [List.filter_filter]
  simp only [Bool.and_self]

/-- The answers to a user's own requests are all the answers there are. -/
theorem all_beside_alone :
    (all (beside whose f nobody) (requestsOf whose u requests) s).1 =
      (all (f u) (requestsOf whose u requests) (s u)).1 := by
  induction requests generalizing s with
  | nil => rfl
  | cons i rest ih =>
    unfold requestsOf at ih ⊢
    by_cases own : whose i = some u
    · rw [List.filter_cons_of_pos (by simpa using own)]
      simp only [all]
      rw [ih, beside_own own]
      simp only [Function.update_self]
    · rw [List.filter_cons_of_neg (by simpa using own)]
      exact ih

/-- The requests of others can be left out. -/
theorem all_beside_purged :
    answersTo whose u requests (all (beside whose f nobody) requests s).1 =
        (all (beside whose f nobody) (requestsOf whose u requests) s).1 ∧
      (all (beside whose f nobody) requests s).2 u =
        (all (beside whose f nobody) (requestsOf whose u requests) s).2 u := by
  obtain ⟨answers, final⟩ := @all_beside _ _ _ _ _ whose f nobody u requests s
  obtain ⟨-, alone⟩ := @all_beside _ _ _ _ _ whose f nobody u (requestsOf whose u requests) s
  rw [requestsOf_own] at alone
  exact ⟨answers.trans all_beside_alone.symm, final.trans alone.symm⟩

end Beside

end Service

end Pinpam.Effect
