import Mathlib.Algebra.Group.Int.Defs
import Mathlib.Algebra.Group.Nat.Defs

/-!
# Status codes

Every function of the library returns an `int` status. `DI_SUCCESS` is the `ok` side of an `Except`
here; `Status` is the failures.
-/

namespace Diana

/-- The failure codes of `diana_core.h`, in its order. -/
inductive Status where
  /-- `DI_END` -/
  | ended
  | error
  | outOfMemory
  | divisionByZero
  | unsupportedCommand
  | divisionOverflow
  | invalidConfiguration
  | win32Error
  | errorNotUsedByCore
  | invalidInput
  | invalidOpcode
  | endOfStream
  | gp
  | interrupt
  | partialReadWrite
  | errorNotImplemented
  | overflow
  | notFound
  | unsupported
  deriving DecidableEq, Repr

end Diana
