/-
Bytes and call outcomes.

Every module of the development speaks about byte strings and about calls that
may fail to return.  A call of the program ends in one of three ways:

* it returns a value;
* it throws — `Fault.raised`, with the exception of the module concerned;
* it leaves defined behaviour and the process dies — `Fault.crash` (a null or
  out-of-bounds access, an endless recursion).
-/
import Mathlib

namespace Suil

/-- The bytes of a `String`, of a `Data` or of a socket read. -/
abbrev Bytes := List UInt8

/-- How a call ends when it does not return. -/
inductive Fault (ε : Type) where
  | raised (e : ε)
  | crash
deriving DecidableEq, Repr

/-- The result of a call that may not return. -/
abbrev Call (ε α : Type) := Except (Fault ε) α

/-- The bytes of an ASCII literal of the source. -/
def ascii (s : String) : Bytes := s.toList.map fun c => c.toNat.toUInt8

/-- What holds of each of the 256 bytes. -/
theorem forall_byte {P : UInt8 → Prop} (h : ∀ n : Fin 256, P (UInt8.ofNat n)) (c : UInt8) : P c := by
  have hc := h ⟨c.toNat, c.toNat_lt⟩
  rwa [UInt8.ofNat_toNat] at hc

end Suil
