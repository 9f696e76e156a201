import Pinpam.Util.Commands

/-!
# The console of pinutil

What a run has read and written, and the key store its master-key commands work on.
`Console.any` is every environment of the process: it may type any line, or fail to.
`Stdin` answers from a given input.
-/

namespace Pinpam
set_option autoImplicit false
open Pinpam.Effect Pinpam.Effect.Fallible

/-- The two persistent keys in the TPM and the sealed file, by their contents. -/
structure KeyStore where
  rsaParent : Option Bytes
  hmacKey : Option Bytes
  sealedFile : Option Bytes

/-- The lines that were read, the results that were printed, and the key store. -/
structure Console where
  typed : List Str
  printed : List Json
  keys : KeyStore

namespace Console

def start (keys : KeyStore) : Console := ⟨[], [], keys⟩

def types (u : Console) (lines : List Str) : Console := { u with typed := u.typed ++ lines }

def prints (u : Console) (json : Json) : Console := { u with printed := u.printed ++ [json] }

section Transcript

variable {u : Console} {lines more : List Str} {json : Json}

@[simp] theorem types_nil : u.types [] = u := by
  unfold types
  rw [List.append_nil]

@[simp] theorem types_types : (u.types lines).types more = u.types (lines ++ more) := by
  unfold types
  rw [List.append_assoc]

@[simp] theorem types_printed : (u.types lines).printed = u.printed := rfl

@[simp] theorem types_keys : (u.types lines).keys = u.keys := rfl

@[simp] theorem types_typed : (u.types lines).typed = u.typed ++ lines := rfl

@[simp] theorem prints_typed : (u.prints json).typed = u.typed := rfl

@[simp] theorem prints_keys : (u.prints json).keys = u.keys := rfl

@[simp] theorem prints_printed : (u.prints json).printed = u.printed ++ [json] := rfl

end Transcript

/-- Any environment: a line is typed or the read fails, the other calls answer at will,
and only the master-key operations touch the keys. -/
def any : Behaviour HostCmd Console
  | .tell _, u, _, u' => u' = u
  | .result json, u, _, u' => u' = u.prints json
  | .flush, u, _, u' => u' = u
  | .echo _, u, _, u' => u' = u
  | .readLine, u, r, u' =>
    match r with
    | .ok line => u' = u.types [line]
    | .error _ => u' = u
  | .masterKey _, u, _, u' => u'.typed = u.typed ∧ u'.printed = u.printed

end Console

/-- A given input, line by line; past its end the lines are empty. -/
structure Stdin where
  input : List (Except Str Str)
  console : Console

/-- The operations of `master_key` on the key store. -/
abbrev KeyOps := (op : MasterKeyOp) → KeyStore → PinResult op.Out × KeyStore

/-- The process on a given input, with a terminal and a disk that never fail. -/
def Stdin.handler (ops : KeyOps) : Handler HostCmd Stdin
  | .tell _, s => ((), s)
  | .result json, s => ((), { s with console := s.console.prints json })
  | .flush, s => (.ok (), s)
  | .echo _, s => (.ok (), s)
  | .readLine, s =>
    match s.input with
    | [] => (.ok [], { s with console := s.console.types [[]] })
    | .ok line :: rest => (.ok line, ⟨rest, s.console.types [line]⟩)
    | .error err :: rest => (.error err, ⟨rest, s.console⟩)
  | .masterKey op, s => ((ops op s.console.keys).1,
    { s with console := { s.console with keys := (ops op s.console.keys).2 } })

theorem Stdin.handler_within (ops : KeyOps) : Within (Stdin.handler ops) Stdin.console Console.any := by
  intro e s
  cases e with
  | readLine =>
    obtain ⟨input, console⟩ := s
    match input with
    | [] => exact rfl
    | .ok line :: rest => exact rfl
    | .error err :: rest => exact rfl
  | masterKey op => exact ⟨rfl, rfl⟩
  | _ => exact rfl

/-! ## Rules for the calls -/

section Calls

variable {S ε : Type} {L : Behaviour NvCmd S} {C : S × Console → Prop} {s : S} {u : Console} {env : Env}

theorem wpx_tell {text : Text} {Q : Except ε Unit → S × Console → Prop} (crash : C (s, u))
    (done : Q (.ok ()) (s, u)) :
    wpx (L.sum Console.any) C (tell text) Q (s, u) := by
  apply wpx_inr.2
  refine ⟨crash, ?_⟩
  rintro _ _ rfl
  exact ⟨crash, done⟩

theorem wpx_human {text : Text} {Q : PinResult Unit → S × Console → Prop} (crash : C (s, u))
    (done : Q (.ok ()) (s, u)) :
    wpx (L.sum Console.any) C (Util.human env text) Q (s, u) := by
  unfold Util.human
  split
  · exact ⟨crash, done⟩
  · exact wpx_tell crash done

theorem wpx_flush {Q : PinResult Unit → S × Console → Prop} (crash : C (s, u))
    (done : ∀ r, Q r (s, u)) :
    wpx (L.sum Console.any) C flush Q (s, u) := by
  apply wpx_inr.2
  refine ⟨crash, ?_⟩
  rintro _ _ rfl
  exact ⟨crash, done _⟩

theorem wpx_echo {on : Bool} {Q : PinResult Unit → S × Console → Prop} (crash : C (s, u))
    (done : ∀ r, Q r (s, u)) :
    wpx (L.sum Console.any) C (echo on) Q (s, u) := by
  apply wpx_inr.2
  refine ⟨crash, ?_⟩
  rintro _ _ rfl
  exact ⟨crash, done _⟩

theorem wpx_readLine {Q : PinResult Str → S × Console → Prop} (crash : ∀ lines, C (s, u.types lines))
    (read : ∀ line, Q (.ok line) (s, u.types [line])) (failed : ∀ e, Q (.error e) (s, u)) :
    wpx (L.sum Console.any) C readLine Q (s, u) := by
  have here : C (s, u) := by simpa using crash []
  apply wpx_inr.2
  refine ⟨here, ?_⟩
  rintro (err | line) _ rfl
  · exact ⟨here, failed _⟩
  · exact ⟨crash [line], read line⟩

/-- A manager operation does not see the console. -/
theorem wpx_manage {α : Type} {x : PinM α} {Q : PinResult α → S × Console → Prop}
    (body : wpx L (fun s => C (s, u)) x (fun r s => Q r (s, u)) s) :
    wpx (L.sum Console.any) C (manage x) Q (s, u) :=
  wpx_inl.2 body

theorem wpx_promptPin {prompt : Text} {attempts : Option (UInt32 × UInt32)}
    {Q : PinResult Pin → S × Console → Prop} (crash : ∀ lines, C (s, u.types lines))
    (failed : ∀ e lines, Q (.error e) (s, u.types lines))
    (entered : ∀ line pin, Pin.new line env.policy = .ok pin → Q (.ok pin) (s, u.types [line])) :
    wpx (L.sum Console.any) C (Util.promptPin env prompt attempts) Q (s, u) := by
  have here : C (s, u) := by simpa using crash []
  have fails : ∀ e, C (s, u) ∧ Q (.error e) (s, u) := fun e => ⟨here, by simpa using failed e []⟩
  have parses : ∀ line, wpx (L.sum Console.any) C (ofResult (Pin.new line env.policy)) Q
      (s, u.types [line]) := by
    intro line
    refine ⟨crash [line], ?_⟩
    cases made : Pin.new line env.policy with
    | ok pin => exact entered line pin made
    | error e => exact failed e [line]
  unfold Util.promptPin
  split
  · exact wpx_bind.2 (wpx_readLine crash parses fails)
  · apply wpx_bind.2 (wpx_tell here _)
    apply wpx_bind.2 (wpx_flush here _)
    rintro (e | _)
    · exact fails e
    apply wpx_bind.2 (wpx_echo here _)
    rintro (e | _)
    · exact fails e
    apply wpx_bind.2 (wpx_attempt.2 (wpx_readLine crash _ _))
    · intro line
      apply wpx_bind.2 (wpx_echo (crash [line]) _)
      rintro (e | _)
      · exact ⟨crash [line], failed e [line]⟩
      apply wpx_bind.2 (wpx_tell (crash [line]) _)
      exact parses line
    · intro e
      apply wpx_bind.2 (wpx_echo here _)
      rintro (e' | _)
      · exact fails e'
      apply wpx_bind.2 (wpx_tell here _)
      exact fails e

/-- A new PIN is one that the policy made of its first line; in machine mode nothing
else is read. -/
theorem wpx_confirmedPin {prompt again : Text} {Q : PinResult Pin → S × Console → Prop}
    (crash : ∀ lines, C (s, u.types lines)) (failed : ∀ e lines, Q (.error e) (s, u.types lines))
    (entered : ∀ line pin rest, (env.machine = true → rest = []) → Pin.new line env.policy = .ok pin →
      Q (.ok pin) (s, u.types (line :: rest))) :
    wpx (L.sum Console.any) C (Util.confirmedPin env prompt again) Q (s, u) := by
  unfold Util.confirmedPin
  apply wpx_bind.2 (wpx_promptPin crash _ _)
  · exact fun e lines => ⟨crash lines, failed e lines⟩
  intro line pin made
  dsimp only
  split
  · exact ⟨crash [line], entered line pin [] (fun _ => rfl) made⟩
  · next human =>
    apply wpx_bind.2 (wpx_promptPin _ _ _)
    · intro lines
      rw [Console.types_types]
      exact crash _
    · intro e lines
      rw [Console.types_types]
      exact ⟨crash _, failed e _⟩
    · intro line' confirm made'
      rw [Console.types_types]
      dsimp only
      split
      · exact ⟨crash _, failed _ _⟩
      · exact ⟨crash _, entered line pin [line'] (fun machine => absurd machine human) made⟩

end Calls

end Pinpam
