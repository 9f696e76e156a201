import Mathlib.Data.List.Flatten
import Pinpam.Core.Lifecycle

/-!
# The lengths a policy asks for

`parse_config` starts from the default policy and lets each setting replace one bound, so
what a text asks for is the last number it gives for each bound, or the default. The two
are not compared, and a bound that no string meets is taken as any other.
-/

namespace Pinpam
set_option autoImplicit false

/-- The most bytes a `str` can have, `isize::MAX`. -/
def isizeMax : Nat := 2 ^ 63 - 1

/-- Some input makes a PIN under the policy. -/
def PinPolicy.Admits (policy : PinPolicy) : Prop :=
  ∃ input, (asBytes input).length ≤ isizeMax ∧ ∃ pin, Pin.new input policy = .ok pin

/-- The number that a part gives for this key. -/
def numberOf (key part : Str) : Option Nat :=
  match splitOnce '=' part with
  | some (key', value) => if key' = key then parseUnsigned 64 value else none
  | none => none

/-- The last number that a text gives for this key. -/
def lastNumber (key config : Str) : Option Nat :=
  ((splitWhitespace config).filterMap (numberOf key)).getLast?

/-- The bounds a text asks for: it cannot take the upper one away. -/
def shortestPin (config : Str) : Nat := (lastNumber "pin_min_length".toList config).getD 4

def longestPin (config : Str) : Nat := (lastNumber "pin_max_length".toList config).getD 8

/-- Some length is within the bounds of the text, and some string has it. -/
structure LengthsAgree (config : Str) : Prop where
  nonempty : 0 < longestPin config
  ordered : shortestPin config ≤ longestPin config
  reachable : shortestPin config ≤ isizeMax

instance (config : Str) : Decidable (LengthsAgree config) :=
  decidable_of_iff (0 < longestPin config ∧ shortestPin config ≤ longestPin config ∧
    shortestPin config ≤ isizeMax)
    ⟨fun agree => ⟨agree.1, agree.2.1, agree.2.2⟩,
      fun agree => ⟨agree.nonempty, agree.ordered, agree.reachable⟩⟩

/-! ## Folds that keep the last value -/

section Fold

variable {σ α β ε : Type} {f : σ → α → Except ε σ} {xs : List α} {s s' : σ}

theorem bind_eq_ok {x : Except ε α} {g : α → Except ε β} {b : β} (accepted : x >>= g = .ok b) :
    ∃ a, x = .ok a ∧ g a = .ok b := by
  cases x with
  | error e => cases accepted
  | ok a => exact ⟨a, rfl, accepted⟩

/-- A fold whose steps replace what is observed by what they read, if anything. -/
theorem foldlM_last (observe : σ → β) (read : α → Option β) (accepted : xs.foldlM f s = .ok s')
    (step : ∀ s x s', f s x = .ok s' → observe s' = (read x).getD (observe s)) :
    observe s' = (xs.filterMap read).getLast?.getD (observe s) := by
  induction xs generalizing s with
  | nil =>
    cases accepted
    rfl
  | cons x xs ih =>
    rw [List.foldlM_cons] at accepted
    obtain ⟨middle, first, accepted⟩ := bind_eq_ok accepted
    have seen := step s x middle first
    have rest := ih accepted
    cases value : read x with
    | none => rw [List.filterMap_cons_none value, rest, seen, value, Option.getD_none]
    | some b =>
      rw [List.filterMap_cons_some value, List.getLast?_cons, rest, seen, value,
        Option.getD_some, Option.getD_some]

end Fold

section Bounds

variable {system : System} {config key value part input : Str} {policy policy' : PinPolicy} {n : Nat}

theorem parseNumber_eq_ok {width : Nat} :
    PinPolicy.parseNumber width value = .ok n ↔ parseUnsigned width value = some n := by
  unfold PinPolicy.parseNumber
  cases parseUnsigned width value <;> simp

/-- What a setting does to the bounds. -/
theorem parseSetting_bounds (accepted : PinPolicy.parseSetting system policy key value = .ok policy') :
    (key = "pin_min_length".toList ∧ ∃ n, parseUnsigned 64 value = some n ∧ policy' =
      { policy with minLength := n }) ∨
    (key = "pin_max_length".toList ∧ ∃ n, parseUnsigned 64 value = some n ∧ policy' =
      { policy with maxLength := some n }) ∨
    (key ≠ "pin_min_length".toList ∧ key ≠ "pin_max_length".toList ∧
      policy'.minLength = policy.minLength ∧ policy'.maxLength = policy.maxLength) := by
  unfold PinPolicy.parseSetting at accepted
  by_cases least : key = "pin_min_length".toList
  · rw [if_pos least] at accepted
    obtain ⟨n, number, set⟩ := bind_eq_ok accepted
    cases set
    exact .inl ⟨least, n, parseNumber_eq_ok.1 number, rfl⟩
  rw [if_neg least] at accepted
  by_cases most : key = "pin_max_length".toList
  · rw [if_pos most] at accepted
    obtain ⟨n, number, set⟩ := bind_eq_ok accepted
    cases set
    exact .inr (.inl ⟨most, n, parseNumber_eq_ok.1 number, rfl⟩)
  rw [if_neg most] at accepted
  refine .inr (.inr ⟨least, most, ?_⟩)
  split_ifs at accepted
  · obtain ⟨n, -, set⟩ := bind_eq_ok accepted
    cases set
    exact ⟨rfl, rfl⟩
  · obtain ⟨path, -, set⟩ := bind_eq_ok accepted
    cases set
    exact ⟨rfl, rfl⟩
  · obtain ⟨tcti, -, set⟩ := bind_eq_ok accepted
    cases set
    exact ⟨rfl, rfl⟩
  · cases accepted
    exact ⟨rfl, rfl⟩

theorem numberOf_some (split : splitOnce '=' part = some (key, value)) :
    numberOf key part = parseUnsigned 64 value := by
  simp [numberOf, split]

theorem numberOf_other {other : Str} (split : splitOnce '=' part = some (key, value))
    (differs : key ≠ other) :
    numberOf other part = none := by
  simp [numberOf, split, differs]

/-- A part replaces a bound by the number it gives for it. -/
theorem parsePart_minLength (accepted : PinPolicy.parsePart system policy part = .ok policy') :
    policy'.minLength = (numberOf "pin_min_length".toList part).getD policy.minLength := by
  unfold PinPolicy.parsePart at accepted
  cases split : splitOnce '=' part with
  | none =>
    rw [split] at accepted
    cases accepted
  | some setting =>
    obtain ⟨key, value⟩ := setting
    rw [split] at accepted
    obtain ⟨rfl, n, number, rfl⟩ | ⟨rfl, n, number, rfl⟩ | ⟨least, -, same, -⟩ :=
      parseSetting_bounds accepted
    · rw [numberOf_some split, number, Option.getD_some]
    · rw [numberOf_other split (by decide), Option.getD_none]
    · rw [numberOf_other split least, Option.getD_none, same]

theorem parsePart_maxLength (accepted : PinPolicy.parsePart system policy part = .ok policy') :
    policy'.maxLength = ((numberOf "pin_max_length".toList part).map some).getD policy.maxLength := by
  unfold PinPolicy.parsePart at accepted
  cases split : splitOnce '=' part with
  | none =>
    rw [split] at accepted
    cases accepted
  | some setting =>
    obtain ⟨key, value⟩ := setting
    rw [split] at accepted
    obtain ⟨rfl, n, number, rfl⟩ | ⟨rfl, n, number, rfl⟩ | ⟨-, most, -, same⟩ :=
      parseSetting_bounds accepted
    · rw [numberOf_other split (by decide), Option.map_none, Option.getD_none]
    · rw [numberOf_some split, number, Option.map_some, Option.getD_some]
    · rw [numberOf_other split most, Option.map_none, Option.getD_none, same]

/-- The bounds of an accepted text. -/
theorem parseConfig_bounds (accepted : PinPolicy.parseConfig system config = .ok policy) :
    policy.minLength = shortestPin config ∧ policy.maxLength = some (longestPin config) := by
  constructor
  · exact foldlM_last PinPolicy.minLength _ accepted fun _ _ _ => parsePart_minLength
  · have last := foldlM_last PinPolicy.maxLength _ accepted fun _ _ _ => parsePart_maxLength
    rw [← List.map_filterMap, List.getLast?_map] at last
    rw [last, longestPin, lastNumber]
    cases ((splitWhitespace config).filterMap (numberOf "pin_max_length".toList)).getLast? <;> rfl

/-- Trimming does not add bytes. -/
theorem trim_length : (asBytes (trim input)).length ≤ (asBytes input).length := by
  have kept : (trim input).Sublist input :=
    (List.rdropWhile_prefix _ _).sublist.trans (List.dropWhile_suffix _).sublist
  exact (kept.flatMap String.utf8EncodeChar).length_le

theorem asBytes_replicate : (asBytes (List.replicate n '0')).length = n := by
  induction n with
  | zero => rfl
  | succ n ih =>
    have one : (String.utf8EncodeChar '0').length = 1 := by decide
    rw [List.replicate_succ, asBytes_cons, List.length_append, one, ih]
    omega

theorem trim_replicate : trim (List.replicate n '0') = List.replicate n '0' := by
  have digits : ∀ c ∈ List.replicate n '0', isWhitespace c = false := by
    intro c member
    rw [List.eq_of_mem_replicate member]
    decide
  have front : (List.replicate n '0').dropWhile isWhitespace = List.replicate n '0' :=
    dropWhile_of_head fun c first => digits c (List.mem_of_mem_head? first)
  rw [trim, front, List.rdropWhile_eq_self_iff]
  intro nonempty space
  rw [digits _ (List.getLast_mem nonempty)] at space
  cases space

/-- A policy admits a PIN if some length that a string can have is within its bounds. -/
theorem admits_iff :
    policy.Admits ↔ ∃ length, 0 < length ∧ length ≤ isizeMax ∧ policy.Bounds length := by
  constructor
  · rintro ⟨input, fits, pin, made⟩
    obtain ⟨valid, -⟩ := Pin.new_eq_ok.1 made
    obtain ⟨nonempty, bounds⟩ := validate_ok_iff.1 valid
    have filled : asBytes (trim input) ≠ [] := fun empty => nonempty (asBytes_injective empty)
    exact ⟨_, List.length_pos_of_ne_nil filled, trim_length.trans fits, bounds⟩
  · rintro ⟨length, positive, fits, bounds⟩
    have nonempty : trim (List.replicate length '0') ≠ [] := by
      rw [trim_replicate]
      simp only [ne_eq, List.replicate_eq_nil_iff]
      omega
    have valid : policy.validate (trim (List.replicate length '0')) = .ok () := by
      rw [validate_ok_iff, trim_replicate, asBytes_replicate]
      exact ⟨trim_replicate ▸ nonempty, bounds⟩
    refine ⟨List.replicate length '0', ?_, ⟨_, trim_trim _, nonempty⟩, Pin.new_eq_ok.2 ⟨valid, rfl⟩⟩
    rw [asBytes_replicate]
    exact fits

/-- An accepted text leaves a PIN to be chosen exactly if its bounds agree. -/
theorem accepted_policy_admits_iff (accepted : PinPolicy.parseConfig system config = .ok policy) :
    policy.Admits ↔ LengthsAgree config := by
  obtain ⟨least, most⟩ := parseConfig_bounds accepted
  rw [admits_iff]
  constructor
  · rintro ⟨length, positive, fits, long, short⟩
    have below := short _ most
    constructor <;> omega
  · intro agree
    obtain ⟨nonempty, ordered, reachable⟩ := agree
    -- the longest PIN may be out of reach, the shortest may be empty
    refine ⟨max 1 (shortestPin config), by omega, ?_, ?_, ?_⟩
    · have positive : 1 ≤ isizeMax := by decide
      omega
    · omega
    · intro max_ bound
      obtain rfl := Option.some.inj (most.symm.trans bound)
      omega

/-- The lower bound is over the upper one until it is given again. -/
theorem accepted_policy_admits_once :
    ({ PinPolicy.default with minLength := 6, maxLength := some 12 } : PinPolicy).Admits := by
  have accepted :
      PinPolicy.parseConfig bareSystem "pin_min_length=20 pin_max_length=12 pin_min_length=6".toList =
      .ok { PinPolicy.default with minLength := 6, maxLength := some 12 } := by
    decide +kernel
  exact (accepted_policy_admits_iff accepted).2 (by decide +kernel)

/-- The lower bound is raised over the upper one, which stays the default. -/
theorem accepted_policy_admits_none : ¬ ∀ (system : System) (config : Str) (policy : PinPolicy),
    PinPolicy.parseConfig system config = .ok policy → policy.Admits := by
  intro claim
  have accepted :
      PinPolicy.parseConfig bareSystem "pin_min_length=9".toList =
      .ok { PinPolicy.default with minLength := 9 } := by
    decide +kernel
  obtain ⟨length, -, -, long, short⟩ := admits_iff.1 (claim _ _ _ accepted)
  have eight := short 8 rfl
  have nine : 9 ≤ length := long
  omega

end Bounds

end Pinpam
