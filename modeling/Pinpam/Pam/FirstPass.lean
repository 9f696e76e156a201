import Pinpam.Core.Legacy
import Pinpam.Pam.Session

/-!
# The first pass

What becomes of the token of an earlier module. By the documentation of the arguments it
is tried only where it is a PIN: digits, and of a length within the policy. The gate is
`Pin.new`, which takes any text of such a length.
-/

namespace Pinpam
set_option autoImplicit false
open Pinpam.Effect Pinpam.Effect.Fallible

/-- A token that is a PIN by the documentation. -/
structure PinPolicy.TakesDigits (policy : PinPolicy) (token : Str) : Prop where
  nonempty : trim token ≠ []
  digits : Digits (trim token)
  bounds : policy.Bounds (trim token).length

/-- What a run does with a token that is no PIN, from what it has seen and returns. -/
structure Ledger.Spares (policy : PinPolicy) (args : List Str) (authtok : Option Str) (l : Ledger)
    (code : PamReturnCode) : Prop where
  tried : l.first ≠ [] → ("try_first_pass".toList ∈ args ∨ "use_first_pass".toList ∈ args) ∧
    ∃ token, authtok = some token ∧ policy.TakesDigits token
  denied : "use_first_pass".toList ∈ args →
    (∀ token, authtok = some token → ¬ policy.TakesDigits token) →
      (l.first = [] ∧ l.asked = [] ∧ l.second = []) ∧
        ∀ used limit, l.status = [.available used limit] → code = .authErr
  prompted : "try_first_pass".toList ∈ args → "use_first_pass".toList ∉ args →
    (∀ token, authtok = some token → ¬ policy.TakesDigits token) →
      l.first = [] ∧ ∀ used limit, l.status = [.available used limit] → used < limit → l.asked ≠ []

section Gate

variable {policy : PinPolicy} {args : ModuleArgs} {authtok : Option Str} {token : Str} {pin : Pin}

theorem Digits.length {s : Str} (digits : Digits s) : (asBytes s).length = s.length := by
  induction s with
  | nil => rfl
  | cons c s ih =>
    have ascii : c.utf8Size = 1 := by
      have digit := digits c List.mem_cons_self
      simp only [Char.isDigit, Bool.and_eq_true, decide_eq_true_eq] at digit
      exact Char.utf8Size_eq_one_iff.2 (UInt32.le_trans digit.2 (by decide : (57 : UInt32) ≤ 127))
    have rest := ih fun d member => digits d (List.mem_cons_of_mem c member)
    rw [asBytes_cons, List.length_append, String.length_utf8EncodeChar, ascii, rest,
      List.length_cons, Nat.add_comm]

/-- And nothing else, where only digits come with a length within the bounds. -/
theorem takesDigits_of_made
    (plain : Digits (trim token) ∨ ¬ policy.Bounds (asBytes (trim token)).length)
    (made : Pin.new token policy = .ok pin) : policy.TakesDigits token := by
  obtain ⟨nonempty, bounds⟩ := validate_ok_iff.1 (Pin.new_eq_ok.1 made).1
  have digits := plain.resolve_right (not_not.2 bounds)
  exact ⟨nonempty, digits, digits.length ▸ bounds⟩

/-- What each decision comes from. -/
theorem decideFirstPass_cases : match decideFirstPass args authtok policy with
    | .tryFirstPass pin => args.wantsFirstPass = true ∧ ∃ token, authtok = some token ∧
      Pin.new token policy = .ok pin
    | .deny => args.useFirstPass = true ∧ ∀ token, authtok = some token →
      ∀ pin, Pin.new token policy ≠ .ok pin
    | .promptUser => args.useFirstPass = false ∧
      (args.tryFirstPass = true → ∀ token, authtok = some token →
        ∀ pin, Pin.new token policy ≠ .ok pin) := by
  have unusable : (authtok.bind fun t => (Pin.new t policy).toOption) = none →
      ∀ token, authtok = some token → ∀ pin, Pin.new token policy ≠ .ok pin := by
    rintro none token rfl pin made
    simp [made, Except.toOption] at none
  unfold decideFirstPass
  by_cases wants : args.wantsFirstPass = true
  · rw [if_neg (not_not.2 wants)]
    cases usable : authtok.bind fun t => (Pin.new t policy).toOption with
    | some pin =>
      obtain ⟨token, cached, made⟩ := Option.bind_eq_some_iff.1 usable
      cases made' : Pin.new token policy with
      | error e => simp [made', Except.toOption] at made
      | ok pin' =>
        obtain rfl : pin' = pin := by simpa [made', Except.toOption] using made
        exact ⟨wants, token, cached, made'⟩
    | none =>
      cases use : args.useFirstPass with
      | true => exact ⟨rfl, unusable usable⟩
      | false => exact ⟨rfl, fun _ => unusable usable⟩
  · rw [if_pos wants]
    simp only [ModuleArgs.wantsFirstPass, Bool.or_eq_true, not_or, Bool.not_eq_true] at wants
    exact ⟨wants.2, fun tries => by simp [wants.1] at tries⟩

theorem decide_tries (wants : args.wantsFirstPass = true) (made : Pin.new token policy = .ok pin) :
    decideFirstPass args (some token) policy = .tryFirstPass pin := by
  unfold decideFirstPass
  rw [if_neg (not_not.2 wants)]
  simp [made, Except.toOption]

/-! ### The arguments -/

theorem read_flags (args : ModuleArgs) (arg : Str) :
    ((args.read arg).tryFirstPass = true ↔ args.tryFirstPass = true ∨ arg = "try_first_pass".toList) ∧
      ((args.read arg).useFirstPass = true ↔ args.useFirstPass = true ∨
        arg = "use_first_pass".toList) := by
  have apart : "try_first_pass".toList ≠ "use_first_pass".toList := by decide
  unfold ModuleArgs.read
  by_cases tries : arg = "try_first_pass".toList
  · rw [if_pos tries]
    exact ⟨⟨fun _ => .inr tries, fun _ => rfl⟩, .inl,
      (·.resolve_right fun uses => apart (tries.symm.trans uses))⟩
  rw [if_neg tries]
  by_cases uses : arg = "use_first_pass".toList
  · rw [if_pos uses]
    exact ⟨⟨.inl, (·.resolve_right tries)⟩, fun _ => .inr uses, fun _ => rfl⟩
  · rw [if_neg uses]
    exact ⟨⟨.inl, (·.resolve_right tries)⟩, .inl, (·.resolve_right uses)⟩

theorem foldl_flags (list : List Str) (args : ModuleArgs) :
    ((list.foldl .read args).tryFirstPass = true ↔ args.tryFirstPass = true ∨
      "try_first_pass".toList ∈ list) ∧
      ((list.foldl .read args).useFirstPass = true ↔ args.useFirstPass = true ∨
        "use_first_pass".toList ∈ list) := by
  induction list generalizing args with
  | nil => exact ⟨⟨.inl, (·.resolve_right nofun)⟩, .inl, (·.resolve_right nofun)⟩
  | cons arg list ih =>
    obtain ⟨tries, uses⟩ := read_flags args arg
    obtain ⟨tries', uses'⟩ := ih (args.read arg)
    rw [List.foldl_cons, tries', uses', tries, uses, List.mem_cons, List.mem_cons, or_assoc, or_assoc,
      eq_comm (a := arg),
      eq_comm (a := arg)]
    exact ⟨Iff.rfl, Iff.rfl⟩

/-- A flag is set where its argument is given. -/
theorem fromStrs_try {list : List Str} :
    (ModuleArgs.fromStrs list).tryFirstPass = true ↔ "try_first_pass".toList ∈ list :=
  (foldl_flags list .default).1.trans (⟨(·.resolve_left nofun), .inr⟩)

theorem fromStrs_use {list : List Str} :
    (ModuleArgs.fromStrs list).useFirstPass = true ↔ "use_first_pass".toList ∈ list :=
  (foldl_flags list .default).2.trans (⟨(·.resolve_left nofun), .inr⟩)

end Gate

section Spared

variable {policy : PinPolicy} {args : List Str} {authtok : Option Str} {used used' limit : UInt32}
  {first : List (Except Str PinutilTestOutcome)} {l : Ledger} {code : PamReturnCode}

/-- A token that passes the gate has only digits. -/
def PinPolicy.Discerns (policy : PinPolicy) (args : List Str) (authtok : Option Str) : Prop :=
  ("try_first_pass".toList ∈ args ∨ "use_first_pass".toList ∈ args) → ∀ token, authtok = some token →
    Digits (trim token) ∨ ¬ policy.Bounds (asBytes (trim token)).length

/-- What is tried is a PIN of digits. -/
theorem tried_digits {pin : Pin} (discerns : policy.Discerns args authtok)
    (decision : decideFirstPass (.fromStrs args) authtok policy = .tryFirstPass pin) :
    ("try_first_pass".toList ∈ args ∨ "use_first_pass".toList ∈ args) ∧ ∃ token, authtok = some token ∧
    policy.TakesDigits token := by
  have from_ := @decideFirstPass_cases policy (.fromStrs args) authtok
  rw [decision] at from_
  obtain ⟨wants, token, cached, made⟩ := from_
  have flagged : "try_first_pass".toList ∈ args ∨ "use_first_pass".toList ∈ args := by
    rw [← fromStrs_try, ← fromStrs_use]
    simpa [ModuleArgs.wantsFirstPass] using wants
  exact ⟨flagged, token, cached, takesDigits_of_made (discerns flagged token cached) made⟩

/-- Of a PIN of digits nothing is promised. -/
theorem spares_digits (digits : ("try_first_pass".toList ∈ args ∨ "use_first_pass".toList ∈ args) ∧
    ∃ token, authtok = some token ∧ policy.TakesDigits token) : l.Spares policy args authtok code := by
  obtain ⟨flagged, token, cached, takes⟩ := digits
  constructor
  · exact fun _ => ⟨flagged, token, cached, takes⟩
  · exact fun _ none => absurd takes (none token cached)
  · exact fun _ _ none => absurd takes (none token cached)

/-- The second phase is come to without `use_first_pass`, and with a token that is no PIN
without a test. -/
theorem Ledger.Enters.spares (enters : Ledger.Enters policy (.fromStrs args) authtok used first used')
    (discerns : policy.Discerns args authtok)
    (prompts : used' = used → first = [] → "use_first_pass".toList ∉ args →
      l.Spares policy args authtok code) :
    l.Spares policy args authtok code := by
  cases enters with
  | prompted decision =>
    have from_ := @decideFirstPass_cases policy (.fromStrs args) authtok
    rw [decision] at from_
    refine prompts rfl rfl fun uses => ?_
    rw [← fromStrs_use, from_.1] at uses
    cases uses
  | rejected pin decision use => exact spares_digits (tried_digits discerns decision)

theorem Ledger.Course.spares (course : Ledger.Course policy (.fromStrs args) authtok l code)
    (discerns : policy.Discerns args authtok) : l.Spares policy args authtok code := by
  cases course with
  | unknown => exact ⟨nofun, fun _ _ => ⟨⟨rfl, rfl, rfl⟩, nofun⟩, fun _ _ _ => ⟨rfl, nofun⟩⟩
  | closed other =>
    constructor
    · exact nofun
    · exact fun _ _ =>
        ⟨⟨rfl, rfl, rfl⟩, fun used limit same => absurd (List.singleton_inj.1 same) (other used limit)⟩
    · exact fun _ _ _ =>
        ⟨rfl, fun used limit same => absurd (List.singleton_inj.1 same) (other used limit)⟩
  | denied decision =>
    have from_ := @decideFirstPass_cases policy (.fromStrs args) authtok
    rw [decision] at from_
    constructor
    · exact nofun
    · exact fun _ _ => ⟨⟨rfl, rfl, rfl⟩, fun _ _ _ => rfl⟩
    · exact fun _ silent => absurd (fromStrs_use.1 from_.1) silent
  | ended decision last => exact spares_digits (tried_digits discerns decision)
  | exhausted enters spent =>
    apply enters.spares discerns
    rintro rfl rfl silent
    constructor
    · exact nofun
    · exact fun uses => absurd uses silent
    · refine fun _ _ _ => ⟨rfl, fun used limit same left => ?_⟩
      cases same
      exact absurd spent (UInt32.not_le.2 left)
  | asked enters left shown =>
    apply enters.spares discerns
    rintro rfl rfl silent
    exact ⟨nofun, fun uses => absurd uses silent, fun _ _ _ => ⟨rfl, fun _ _ _ _ => nofun⟩⟩
  | tested enters left shown =>
    apply enters.spares discerns
    rintro rfl rfl silent
    exact ⟨nofun, fun uses => absurd uses silent, fun _ _ _ => ⟨rfl, fun _ _ _ _ => nofun⟩⟩

/-! ### A run that tries -/

/-- A helper that reports three attempts and then fails to start. -/
def brokenHelper : Handler PamCmd Unit
  | .sendMessage .., u => (.ok (), u)
  | .converse _, u => (.error .convErr, u)
  | .pinutilStatus _, u =>
    (.ok ⟨0, some (toJson (.ok (some ⟨0, 3⟩) : PinResult (Option AttemptInfo)))⟩, u)
  | .pinutilTest .., u => (.error [], u)

/-- A token that is made a PIN is tried. -/
theorem first_pass_tries {pin : Pin} {args : ModuleArgs}
    (decision : decideFirstPass args authtok policy = .tryFirstPass pin) :
    ∃ events r, (Pam.authenticateUser policy [] args (fun _ => some 0) authtok).run.Runs
      Pam.any () events r () ∧
      (Ledger.ofEvents events).first ≠ [] := by
  have run := Prog.runs_run brokenHelper.graph_within
      (Pam.authenticateUser policy [] args (fun _ => some 0) authtok).run ()
  refine ⟨_, _, run.mono fun _ _ _ _ _ => trivial, ?_⟩
  refine run.recounted Ledger.note (C := fun _ => True) (Q := fun _ x => x.2.first ≠ []) ?_
  have spoken : Spoken (Folding Ledger.note brokenHelper.graph) := spoken_note fun _ _ _ _ _ _ => rfl
  apply wpx_authenticateUser spoken
  · exact nofun
  · rintro - r ⟨u, l⟩ ⟨act, -⟩ other
    obtain rfl := (Prod.mk.inj act).1
    exact absurd (pinutilStatus_report _) (other 0 3)
  · rintro - r ⟨u, l⟩ ⟨-, same⟩ used limit -
    obtain rfl : l = ⟨[pinutilStatus r], [], [], []⟩ := same
    apply wpx_firstPhase spoken
    · exact fun denied => nomatch decision.symm.trans denied
    · rintro pin' - r' ⟨u', l'⟩ ⟨act, same⟩
      obtain rfl := (Prod.mk.inj act).1
      obtain rfl : l' = ⟨[pinutilStatus r], [.error []], [], []⟩ := same
      exact ⟨fun _ => nofun, fun _ => nofun⟩
    · exact fun prompted => nomatch decision.symm.trans prompted

/-- In every run only a PIN of digits is tried, and another token denies or prompts as
the flags say, exactly if the tokens that the gate lets through have only digits. -/
theorem stacked_password_spared_iff : (∀ username uidOf events r,
    (Pam.authenticateUser policy username (.fromStrs args) uidOf authtok).run.Runs
      Pam.any () events r () →
      (Ledger.ofEvents events).Spares policy args authtok (returnCode r)) ↔
      policy.Discerns args authtok := by
  constructor
  · rintro spares flagged token rfl
    by_contra lets
    obtain ⟨letters, bounds⟩ := not_or.1 lets
    have nonempty : trim token ≠ [] := by
      intro empty
      rw [empty] at letters
      exact letters nofun
    have made : Pin.new token policy = .ok ⟨trim token, trim_trim token, nonempty⟩ :=
      Pin.new_eq_ok.2 ⟨validate_ok_iff.2 ⟨nonempty, not_not.1 bounds⟩, rfl⟩
    have wants : (ModuleArgs.fromStrs args).wantsFirstPass = true := by
      rw [← fromStrs_try, ← fromStrs_use] at flagged
      simpa [ModuleArgs.wantsFirstPass] using flagged
    obtain ⟨events, r, run, tries⟩ := first_pass_tries (decide_tries wants made)
    obtain ⟨-, token', same, takes⟩ := (spares _ _ _ _ run).tried tries
    cases same
    exact letters takes.digits
  · exact fun discerns username uidOf events r run =>
      (authenticate_course spoken_any run).spares discerns

/-- The password of a user is tried: `hunter2` has a length within the default policy. -/
theorem stacked_password_tried : ¬ ∀ (policy : PinPolicy) (args : List Str) (authtok : Option Str)
    (username : Str) (uidOf : Str → Option UInt32) (events : List (Event PamCmd Unit))
    (r : Except PamReturnCode PamReturnCode),
      (Pam.authenticateUser policy username (.fromStrs args) uidOf authtok).run.Runs
        Pam.any () events r () →
        (Ledger.ofEvents events).Spares policy args authtok (returnCode r) := by
  intro claim
  have made : Pin.new "hunter2".toList .default = .ok ⟨"hunter2".toList, by
    decide +kernel, by decide⟩ :=
    Pin.new_eq_ok.2 ⟨by decide +kernel, by decide +kernel⟩
  obtain ⟨events, r, run, tries⟩ :=
    first_pass_tries (@decide_tries _ (.fromStrs ["try_first_pass".toList]) _ _ (by decide) made)
  obtain ⟨-, token, same, takes⟩ := (claim _ ["try_first_pass".toList] _ _ _ _ _ run).tried tries
  cases same
  exact absurd takes.digits (by decide +kernel)

end Spared

end Pinpam
