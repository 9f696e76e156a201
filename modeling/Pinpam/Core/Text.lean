import Mathlib.Tactic.SplitIfs
import Pinpam.Tpm.Nv

/-!
# Text

A `str` is the list of its scalar values. `trim` removes the characters with the
`White_Space` property at both ends, `asBytes` is the UTF-8 encoding.
-/

namespace Pinpam
set_option autoImplicit false

abbrev Str := List Char

/-- `char::is_whitespace`. -/
def isWhitespace (c : Char) : Bool :=
  (0x9 ≤ c.val && c.val ≤ 0xD) || (0x2000 ≤ c.val && c.val ≤ 0x200A) ||
    [0x20, 0x85, 0xA0, 0x1680, 0x2028, 0x2029, 0x202F, 0x205F, 0x3000].contains c.val

/-- `str::trim`. -/
def trim (s : Str) : Str := (s.dropWhile isWhitespace).rdropWhile isWhitespace

theorem head?_dropWhile_not {α : Type} (p : α → Bool) (l : List α) {a : α}
    (head : (l.dropWhile p).head? = some a) : p a = false := by
  have := List.head?_dropWhile_not p l
  rw [head] at this
  simpa using this

theorem dropWhile_of_head {α : Type} {p : α → Bool} {l : List α}
    (stop : ∀ a, l.head? = some a → p a = false) : l.dropWhile p = l := by
  cases l with
  | nil => rfl
  | cons a l => simp [stop a rfl]

@[simp] theorem trim_trim (s : Str) : trim (trim s) = trim s := by
  have stays : (trim s).dropWhile isWhitespace = trim s := by
    apply dropWhile_of_head
    intro a head
    obtain ⟨rest, eq⟩ : ∃ rest, trim s = a :: rest := by
      cases h : trim s with
      | nil => simp [h] at head
      | cons b rest => exact ⟨rest, by simp_all⟩
    have start : ((s.dropWhile isWhitespace)).head? = some a := by
      obtain ⟨tail, split⟩ := List.rdropWhile_prefix isWhitespace (s.dropWhile isWhitespace)
      rw [← split, show (s.dropWhile isWhitespace).rdropWhile isWhitespace = a :: rest from eq]
      rfl
    exact head?_dropWhile_not _ _ start
  rw [trim, stays]
  exact List.rdropWhile_idempotent isWhitespace (s.dropWhile isWhitespace)

/-- The UTF-8 bytes. -/
def asBytes (s : Str) : Bytes := s.flatMap String.utf8EncodeChar

@[simp] theorem asBytes_nil : asBytes [] = [] := rfl

@[simp] theorem asBytes_append (s t : Str) : asBytes (s ++ t) = asBytes s ++ asBytes t := by
  simp [asBytes]

theorem asBytes_cons (c : Char) (s : Str) :
    asBytes (c :: s) = String.utf8EncodeChar c ++ asBytes s := rfl

/-- A character is read back from the front of an encoding. -/
theorem utf8_prefix {c d : Char} {b b' : Bytes}
    (eq : String.utf8EncodeChar c ++ b = String.utf8EncodeChar d ++ b') : c = d := by
  have bytes := congrArg List.toByteArray eq
  rw [List.toByteArray_append, List.toByteArray_append] at bytes
  have left := @ByteArray.utf8DecodeChar?_utf8EncodeChar_append b.toByteArray c
  have right := @ByteArray.utf8DecodeChar?_utf8EncodeChar_append b'.toByteArray d
  rw [bytes] at left
  exact Option.some.inj (left.symm.trans right)

theorem asBytes_injective : Function.Injective asBytes := by
  intro s
  induction s with
  | nil =>
    intro t eq
    cases t with
    | nil => rfl
    | cons d t =>
      have := congrArg List.length eq
      have positive := Char.utf8Size_pos d
      simp [asBytes_cons] at this
      omega
  | cons c s ih =>
    intro t eq
    cases t with
    | nil =>
      have := congrArg List.length eq
      have positive := Char.utf8Size_pos c
      simp [asBytes_cons] at this
      omega
    | cons d t =>
      rw [asBytes_cons, asBytes_cons] at eq
      obtain rfl := utf8_prefix eq
      rw [ih (List.append_cancel_left eq)]

theorem ofNat_eq_zero {n : Nat} (zero : (0 : UInt8) = .ofNat n) : n % 256 = 0 := by
  have := congrArg UInt8.toNat zero
  simpa [UInt8.toNat_ofNat'] using this.symm

/-- Only the NUL character has a zero byte: the other leading and continuation
bytes have a high bit set. -/
theorem zero_mem_utf8 {c : Char} (zero : 0 ∈ String.utf8EncodeChar c) : c = '\x00' := by
  simp only [String.utf8EncodeChar] at zero
  split_ifs at zero with one two three
  · have value := ofNat_eq_zero (List.mem_singleton.1 zero)
    exact Char.ext (UInt32.toNat_inj.mp (show c.val.toNat = 0 by omega))
  all_goals
    simp only [List.mem_cons, List.not_mem_nil, or_false] at zero
    exfalso
  · obtain z | z := zero <;> have := ofNat_eq_zero z <;> omega
  · obtain z | z | z := zero <;> have := ofNat_eq_zero z <;> omega
  · obtain z | z | z | z := zero <;> have := ofNat_eq_zero z <;> omega

theorem zero_not_mem_asBytes {s : Str} (free : '\x00' ∉ s) : 0 ∉ asBytes s := by
  intro zero
  obtain ⟨c, member, zero⟩ := List.mem_flatMap.1 zero
  exact free (zero_mem_utf8 zero ▸ member)

theorem stripZeros_append {b c : Bytes} (free : 0 ∉ c) (nonempty : c ≠ []) :
    stripZeros (b ++ c) = b ++ c := by
  apply List.rdropWhile_eq_self_iff.2
  intro _ zero
  rw [List.getLast_append_of_ne_nil _ nonempty] at zero
  exact free (beq_iff_eq.1 zero ▸ c.getLast_mem nonempty)

/-- The bytes lose their trailing zeros with the trailing NUL characters. -/
theorem stripZeros_asBytes (s : Str) :
    stripZeros (asBytes s) = asBytes (s.rdropWhile (· == '\x00')) := by
  induction s using List.reverseRecOn with
  | nil => rfl
  | append_singleton s c ih =>
    by_cases nul : c = '\x00'
    · subst nul
      rw [List.rdropWhile_concat_pos _ _ _ rfl, ← ih, asBytes_append]
      exact List.rdropWhile_concat_pos _ _ _ rfl
    · rw [List.rdropWhile_concat_neg _ _ _ (by simpa using nul), asBytes_append]
      apply stripZeros_append
      · exact zero_not_mem_asBytes (by simpa using fun same => nul same.symm)
      · exact fun empty => nomatch @asBytes_injective [c] [] empty

end Pinpam
