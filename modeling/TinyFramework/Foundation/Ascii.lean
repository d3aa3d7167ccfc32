/-
  Foundation/Ascii.lean --- C strings as byte lists, and the `<ctype.h>`
  functions of the C locale.
-/
import Mathlib.Data.List.Basic

set_option autoImplicit false

namespace TinyFramework.Foundation

/-- The bytes of a C string, without the terminating NUL. -/
abbrev Bytes := List UInt8

/-- A string literal of the source. -/
def ascii (s : String) : Bytes :=
  s.toList.map fun c => UInt8.ofNat c.toNat

/-- A literal is known by its characters alone, without the encoding of the string. -/
theorem ascii_ofList (l : List Char) :
    ascii (String.ofList l) = l.map fun c => UInt8.ofNat c.toNat := by
  rw [ascii, String.toList_ofList]

theorem forall_mem_ascii {p : UInt8 → Prop} [DecidablePred p] {l : List Char}
    (h : (l.all fun c => p (UInt8.ofNat c.toNat)) = true) : ∀ b ∈ ascii (String.ofList l), p b := by
  rw [ascii_ofList]
  exact List.forall_mem_map.2 fun c hc => of_decide_eq_true (List.all_eq_true.1 h c hc)

/-- `tolower` in the C locale. -/
def tolower (b : UInt8) : UInt8 :=
  if 65 ≤ b ∧ b ≤ 90 then b + 32 else b

/-- `isspace` in the C locale. -/
def isspace (b : UInt8) : Bool :=
  b == 32 || (9 ≤ b && b ≤ 13)

end TinyFramework.Foundation
