import Pinpam.Pam.Authenticate

/-!
# Sessions

What a run of `authenticate_user` amounts to, whatever the application and the helper
answer: a rule for each phase, and the courses that a whole run can take.
-/

namespace Pinpam
set_option autoImplicit false
open Pinpam.Effect Pinpam.Effect.Fallible

/-- The return code for an outcome. -/
def PinutilTestOutcome.code : PinutilTestOutcome → PamReturnCode
  | .success => .success
  | .invalidPin => .authErr
  | .lockedOut | .newlyLockedOut => .maxtries
  | .notConfigured | .unavailable => .authinfoUnavail

/-- The return code for a test. -/
def testCode : Except Str PinutilTestOutcome → PamReturnCode
  | .ok outcome => outcome.code
  | .error _ => .authinfoUnavail

/-- Only the helper changes the state. -/
def Spoken {S : Type} (R : Behaviour PamCmd S) : Prop :=
  ∀ style text s r s', R (.sendMessage style text) s r s' → s' = s

/-- A conversation that fails does not do so with the code of a success. -/
structure Candid {S : Type} (R : Behaviour PamCmd S) : Prop where
  sent : ∀ style text s s', ¬ R (.sendMessage style text) s (.error .success) s'
  asked : ∀ prompt s s', ¬ R (.converse prompt) s (.error .success) s'

section Rules

variable {S : Type} {R : Behaviour PamCmd S} {s : S} {policy : PinPolicy} {username : Str}
  {args : ModuleArgs} {authtok : Option Str} {used limit : UInt32}
  {Q : Except PamReturnCode PamReturnCode → S → Prop}

/-- There is a prompt for every number of attempts but zero. -/
theorem promptText_some {remaining : UInt32} (positive : 0 < remaining.toNat) :
    ∃ prompt, Pam.promptText remaining = some prompt := by
  unfold Pam.promptText
  by_cases many : remaining ≥ 3
  · simp [many]
  by_cases two : remaining = 2
  · simp [two]
  by_cases one : remaining = 1
  · simp [one]
  · have below := UInt32.lt_iff_toNat_lt.1 (UInt32.not_le.1 many)
    have notTwo : remaining.toNat ≠ 2 := fun same => two (UInt32.toNat_inj.1 same)
    have notOne : remaining.toNat ≠ 1 := fun same => one (UInt32.toNat_inj.1 same)
    simp at below
    omega

theorem wpx_show {style : PamMessageStyle} {text : PamText} {code : PamReturnCode}
    (spoken : Spoken R) (post : Q (.ok code) s) :
    wpx R (fun _ => True) (do
      Pam.show_ (op (.sendMessage style text) id)
      pure code) Q s := by
  unfold Pam.show_
  refine wpx_bind.2 (wpx_bind.2 (wpx_attempt.2 ⟨trivial, fun r s' act => ?_⟩))
  obtain rfl := spoken _ _ _ _ _ act
  exact ⟨trivial, trivial, trivial, post⟩

theorem wpx_finalize {outcome : PinutilTestOutcome} (spoken : Spoken R)
    (post : Q (.ok outcome.code) s) :
    wpx R (fun _ => True) (Pam.finalizeOutcome outcome) Q s := by
  cases outcome with
  | success => exact ⟨trivial, post⟩
  | invalidPin => exact wpx_show spoken post
  | lockedOut => exact wpx_show spoken post
  | newlyLockedOut => exact wpx_show spoken post
  | notConfigured => exact wpx_show spoken post
  | unavailable => exact wpx_show spoken post

theorem wpx_tested {pin : Pin} (spoken : Spoken R)
    (post : ∀ r s', R (.pinutilTest username (pin.str ++ ['\n'])) s r s' →
      Q (.ok (testCode (pinutilTest r))) s') :
    wpx R (fun _ => True) (do
      match ← Pam.runPinutilTest username pin with
      | .ok outcome => Pam.finalizeOutcome outcome
      | .error _ => do
        Pam.show_ (Pam.error .pinAuthUnavail)
        pure .authinfoUnavail) Q s := by
  refine wpx_bind.2 ⟨trivial, fun r s' act => ⟨trivial, ?_⟩⟩
  have post := post r s' act
  dsimp only
  cases tested : pinutilTest r with
  | ok outcome =>
    rw [tested] at post
    exact wpx_finalize spoken post
  | error e =>
    rw [tested] at post
    exact wpx_show spoken post

theorem wpx_promptForPin {prompt : PamText} {Q : Except PamReturnCode Pin → S → Prop}
    (spoken : Spoken R)
    (shown : Pam.promptText (limit - used) = some prompt) (asked : ∀ r s', R (.converse prompt) s r s' →
      (∀ code, (Candid R → code ≠ .success) → Q (.error code) s') ∧ ∀ text pin, r = .ok (.text text) →
      Pin.new (trim text) policy = .ok pin → Q (.ok pin) s') :
    wpx R (fun _ => True) (Pam.promptForPin policy used limit) Q s := by
  unfold Pam.promptForPin
  rw [shown]
  refine wpx_bind.2 ⟨trivial, fun r s' act => ⟨trivial, ?_⟩⟩
  obtain ⟨failed, entered⟩ := asked r s' act
  match r with
  | .error code => exact ⟨trivial, failed code fun candid same => candid.asked _ _ _ (same ▸ act)⟩
  | .ok .missing => exact ⟨trivial, failed _ (by simp)⟩
  | .ok .undecodable => exact ⟨trivial, failed _ (by simp)⟩
  | .ok (.text input) =>
    have refused : ∀ message, wpx R (fun _ => True) (do
        Pam.error message
        throw .authErr) Q s' := by
      intro message
      refine wpx_bind.2 ⟨trivial, fun r s'' act => ⟨trivial, ?_⟩⟩
      obtain rfl := spoken _ _ _ _ _ act
      cases r with
      | error code => exact ⟨trivial, failed code fun candid same => candid.sent _ _ _ _ (same ▸ act)⟩
      | ok _ => exact ⟨trivial, failed _ (by simp)⟩
    dsimp only
    split
    · next pin made => exact ⟨trivial, entered input pin rfl made⟩
    · exact refused _
    · exact refused _

/-- The second phase. -/
theorem wpx_secondPhase (spoken : Spoken R) (exhausted : limit ≤ used → Q (.ok .maxtries) s)
    (asked : used < limit → ∀ prompt, Pam.promptText (limit - used) = some prompt →
      ∀ r s', R (.converse prompt) s r s' →
      (∀ code, (Candid R → code ≠ .success) → Q (.error code) s') ∧ ∀ text pin, r = .ok (.text text) →
      Pin.new (trim text) policy = .ok pin → ∀ r s'',
        R (.pinutilTest username (pin.str ++ ['\n'])) s' r s'' →
        Q (.ok (testCode (pinutilTest r))) s'') :
    wpx R (fun _ => True) (Pam.secondPhase policy username used limit) Q s := by
  unfold Pam.secondPhase
  by_cases spent : used ≥ limit
  · rw [if_pos spent]
    exact wpx_show spoken (exhausted spent)
  rw [if_neg spent]
  have left : used < limit := UInt32.not_le.1 spent
  have positive : 0 < (limit - used).toNat := by
    have below := UInt32.lt_iff_toNat_lt.1 left
    rw [UInt32.toNat_sub_of_le _ _ (UInt32.le_iff_toNat_le.2 below.le)]
    omega
  obtain ⟨prompt, shown⟩ := promptText_some positive
  apply wpx_bind.2 (wpx_promptForPin spoken shown _)
  intro r s' act
  obtain ⟨failed, entered⟩ := asked left prompt shown r s' act
  constructor
  · exact fun code honest => ⟨trivial, failed code honest⟩
  · intro text pin said made
    exact wpx_tested spoken (entered text pin said made)

/-- The first phase. -/
theorem wpx_firstPhase (spoken : Spoken R)
    (denied : decideFirstPass args authtok policy = .deny → Q (.ok .authErr) s)
    (tested : ∀ pin, decideFirstPass args authtok policy = .tryFirstPass pin → ∀ r s',
      R (.pinutilTest username (pin.str ++ ['\n'])) s r s' →
        (args.useFirstPass = true ∨ pinutilTest r ≠ .ok .invalidPin →
          Q (.ok (testCode (pinutilTest r))) s') ∧
          (args.useFirstPass = false → pinutilTest r = .ok .invalidPin →
            wpx R (fun _ => True) (Pam.secondPhase policy username (Pam.saturatingAdd used 1) limit)
              Q s'))
    (prompted : decideFirstPass args authtok policy = .promptUser →
      wpx R (fun _ => True) (Pam.secondPhase policy username used limit) Q s) :
    wpx R (fun _ => True) (Pam.firstPhase policy username args authtok used limit) Q s := by
  unfold Pam.firstPhase
  cases decision : decideFirstPass args authtok policy with
  | deny => exact wpx_show spoken (denied decision)
  | promptUser => exact prompted decision
  | tryFirstPass pin =>
    refine wpx_bind.2 ⟨trivial, fun r s' act => ⟨trivial, ?_⟩⟩
    obtain ⟨ended, again⟩ := tested pin decision r s' act
    dsimp only
    cases result : pinutilTest r with
    | error e =>
      rw [result] at ended
      exact wpx_show spoken (ended (.inr nofun))
    | ok outcome =>
      rw [result] at ended again
      cases use : args.useFirstPass with
      | true =>
        have post : Q (.ok outcome.code) s' := ended (.inl use)
        cases outcome with
        | success => exact ⟨trivial, post⟩
        | _ => exact wpx_finalize spoken post
      | false =>
        by_cases invalid : outcome = .invalidPin
        · subst invalid
          exact again use rfl
        have post : Q (.ok outcome.code) s' := ended (.inr fun same => invalid (Except.ok.inj same))
        cases outcome with
        | success => exact ⟨trivial, post⟩
        | invalidPin => exact absurd rfl invalid
        | _ => exact wpx_finalize spoken post

/-- The whole. -/
theorem wpx_authenticateUser {uidOf : Str → Option UInt32} (spoken : Spoken R)
    (unknown : uidOf username = none → Q (.ok .userUnknown) s)
    (closed : uidOf username ≠ none → ∀ r s', R (.pinutilStatus username) s r s' →
      (∀ used limit, pinutilStatus r ≠ .available used limit) →
      ∀ code, code ≠ .success → Q (.ok code) s')
    (open_ : uidOf username ≠ none → ∀ r s', R (.pinutilStatus username) s r s' →
      ∀ used limit, pinutilStatus r = .available used limit →
        wpx R (fun _ => True) (Pam.firstPhase policy username args authtok used limit) Q s') :
    wpx R (fun _ => True) (Pam.authenticateUser policy username args uidOf authtok) Q s := by
  unfold Pam.authenticateUser
  cases found : uidOf username with
  | none => exact wpx_show spoken (unknown found)
  | some uid =>
    have known : uidOf username ≠ none := by simp [found]
    refine wpx_bind.2 ⟨trivial, fun r s' act => ⟨trivial, ?_⟩⟩
    have closed := closed known r s' act
    dsimp only
    cases status : pinutilStatus r with
    | unavailable e => exact wpx_show spoken (closed (by simp [status]) _ (by simp))
    | notProvisioned => exact wpx_show spoken (closed (by simp [status]) _ (by simp))
    | lockedOut => exact wpx_show spoken (closed (by simp [status]) _ (by simp))
    | available used limit => exact open_ known r s' act used limit status

end Rules

/-! ## Courses -/

/-- What a run has seen: the status reports, the tests before any prompt, the prompts, and
the tests after one. -/
structure Ledger where
  status : List PinStatus
  first : List (Except Str PinutilTestOutcome)
  asked : List PamText
  second : List (Except Str PinutilTestOutcome)

namespace Ledger

def empty : Ledger := ⟨[], [], [], []⟩

def note {S : Type} (l : Ledger) : Event PamCmd S → Ledger
  | ⟨_, .sendMessage .., _, _⟩ => l
  | ⟨_, .converse prompt, _, _⟩ => { l with asked := l.asked ++ [prompt] }
  | ⟨_, .pinutilStatus _, output, _⟩ => { l with status := l.status ++ [pinutilStatus output] }
  | ⟨_, .pinutilTest .., output, _⟩ =>
    if l.asked = [] then { l with first := l.first ++ [pinutilTest output] }
      else { l with second := l.second ++ [pinutilTest output] }

def ofEvents {S : Type} (events : List (Event PamCmd S)) : Ledger := events.foldl note empty

/-- How the second phase is come to: with these tests, and with this count. -/
inductive Enters (policy : PinPolicy) (args : ModuleArgs) (authtok : Option Str) (used : UInt32) :
    List (Except Str PinutilTestOutcome) → UInt32 → Prop where
  | prompted (decision : decideFirstPass args authtok policy = .promptUser) :
      Enters policy args authtok used [] used
  | rejected (pin : Pin) (decision : decideFirstPass args authtok policy = .tryFirstPass pin)
      (use : args.useFirstPass = false) :
      Enters policy args authtok used [.ok .invalidPin] (Pam.saturatingAdd used 1)

/-- The courses of a run, with what they have seen and return. -/
inductive Course (policy : PinPolicy) (args : ModuleArgs) (authtok : Option Str) :
    Ledger → PamReturnCode → Prop where
  | unknown : Course policy args authtok empty .userUnknown
  | closed {status : PinStatus} {code : PamReturnCode} (other : ∀ used limit, status ≠
    .available used limit) :
      Course policy args authtok ⟨[status], [], [], []⟩ code
  | denied {used limit : UInt32} (decision : decideFirstPass args authtok policy = .deny) :
      Course policy args authtok ⟨[.available used limit], [], [], []⟩ .authErr
  | ended {used limit : UInt32} {pin : Pin} {test : Except Str PinutilTestOutcome}
      (decision : decideFirstPass args authtok policy = .tryFirstPass pin)
      (last : args.useFirstPass = true ∨ test ≠ .ok .invalidPin) :
      Course policy args authtok ⟨[.available used limit], [test], [], []⟩ (testCode test)
  | exhausted {used used' limit : UInt32} {first : List (Except Str PinutilTestOutcome)}
      (enters : Enters policy args authtok used first used') (spent : limit ≤ used') :
      Course policy args authtok ⟨[.available used limit], first, [], []⟩ .maxtries
  | asked {used used' limit : UInt32} {first : List (Except Str PinutilTestOutcome)} {prompt : PamText}
      {code : PamReturnCode} (enters : Enters policy args authtok used first used')
      (left : used' < limit) (shown : Pam.promptText (limit - used') = some prompt) :
      Course policy args authtok ⟨[.available used limit], first, [prompt], []⟩ code
  | tested {used used' limit : UInt32} {first : List (Except Str PinutilTestOutcome)} {prompt : PamText}
      {test : Except Str PinutilTestOutcome} (enters : Enters policy args authtok used first used')
      (left : used' < limit) (shown : Pam.promptText (limit - used') = some prompt) :
      Course policy args authtok ⟨[.available used limit], first, [prompt], [test]⟩ (testCode test)

end Ledger

/-- Any application and any helper. -/
def Pam.any : Behaviour PamCmd Unit := fun _ _ _ _ => True

theorem spoken_any : Spoken Pam.any := fun _ _ _ _ _ _ => rfl

section Courses

variable {S G : Type} {R : Behaviour PamCmd S} {policy : PinPolicy} {username : Str}
  {args : ModuleArgs} {authtok : Option Str} {uidOf : Str → Option UInt32}
  {used used' limit : UInt32} {first : List (Except Str PinutilTestOutcome)}

theorem spoken_folding {note : G → Event PamCmd S → G} (spoken : Spoken R)
    (unseen : ∀ g style text s r s', note g ⟨s, .sendMessage style text, r, s'⟩ = g) :
    Spoken (Folding note R) := by
  rintro style text ⟨s, g⟩ r ⟨s', g'⟩ ⟨act, same⟩
  exact Prod.ext (spoken _ _ _ _ _ act) (same.trans (unseen _ _ _ _ _ _))

theorem spoken_note (spoken : Spoken R) : Spoken (Folding Ledger.note R) :=
  spoken_folding spoken fun _ _ _ _ _ _ => rfl

theorem course_second {s : S} (spoken : Spoken R)
    (enters : Ledger.Enters policy args authtok used first used') :
    wpx (Folding Ledger.note R) (fun _ => True) (Pam.secondPhase policy username used' limit)
      (fun r x => Ledger.Course policy args authtok x.2 (returnCode r))
      (s, ⟨[.available used limit], first, [], []⟩) := by
  apply wpx_secondPhase (spoken_note spoken)
  · exact fun spent => .exhausted enters spent
  · rintro left prompt shown r ⟨s', l⟩ ⟨-, same⟩
    obtain rfl : l = ⟨[.available used limit], first, [prompt], []⟩ := same
    constructor
    · exact fun code _ => .asked enters left shown
    · rintro text pin - - r' ⟨s'', l'⟩ ⟨-, same'⟩
      obtain rfl : l' = ⟨[.available used limit], first, [prompt], [pinutilTest r']⟩ := same'
      exact .tested enters left shown

/-- Every run takes one of the courses. -/
theorem authenticate_course {events : List (Event PamCmd S)}
    {r : Except PamReturnCode PamReturnCode} {s s' : S} (spoken : Spoken R)
    (run : (Pam.authenticateUser policy username args uidOf authtok).run.Runs R s events r s') :
    Ledger.Course policy args authtok (.ofEvents events) (returnCode r) := by
  refine run.recounted Ledger.note (C := fun _ => True) (Q :=
    fun r x => Ledger.Course policy args authtok x.2 (returnCode r)) ?_
  apply wpx_authenticateUser (spoken_note spoken)
  · exact fun _ => .unknown
  · rintro - r ⟨s, l⟩ ⟨-, same⟩ other code -
    obtain rfl : l = ⟨[pinutilStatus r], [], [], []⟩ := same
    exact .closed other
  · rintro - r ⟨s, l⟩ ⟨-, same⟩ used limit status
    obtain rfl : l = ⟨[pinutilStatus r], [], [], []⟩ := same
    rw [status]
    apply wpx_firstPhase (spoken_note spoken)
    · exact fun decision => .denied decision
    · rintro pin decision r' ⟨s', l'⟩ ⟨-, same'⟩
      obtain rfl : l' = ⟨[.available used limit], [pinutilTest r'], [], []⟩ := same'
      constructor
      · exact fun last => .ended decision last
      · intro use invalid
        rw [invalid]
        exact course_second spoken (.rejected pin decision use)
    · exact fun decision => course_second spoken (.prompted decision)

end Courses

end Pinpam
