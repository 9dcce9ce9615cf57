import Gem5.Lib.Bytes

/-!
# `Gem5.MyMinor.Types`: the scalar types of the MyMinor model

Addresses, table indices and sequence numbers are natural numbers. Where the source
relies on the width of a type (a truncating cast, an end address that wraps), the
definition takes the remainder by a power of two. An `unsigned long` that holds loaded
data is a 64-bit vector, because the source copies it byte by byte.
-/

namespace Gem5.MyMinor

/-- `Addr`: a 64-bit address. -/
abbrev Addr := Nat

/-- A byte of memory or of a packet. -/
abbrev Byte := Lib.Byte

/-- An `unsigned long` that holds loaded data. -/
abbrev Word := Lib.Word

/-- `ThreadID`. -/
abbrev ThreadID := Nat

/-- `InstSeqNum`. -/
abbrev InstSeqNum := Nat

/-- `Fault`. `none` is `NoFault`, and `some f` is a fault object. -/
abbrev Fault := Option Nat

/-- `NoFault`. -/
def noFault : Fault := none

end Gem5.MyMinor
