import Mathlib

/-!
# Bytes

The programs of this development work on `char`, `std::string` and
`std::string_view`.  A `char` is modelled by the unsigned value of its eight
bits and a string by the list of its bytes; views and strings are not told
apart, because no modelled function depends on who owns the storage.
-/

namespace Eureka

/-- A C++ `char`, as the unsigned value of its bits. -/
abbrev Byte := UInt8

/-- The contents of a `std::string` or of a `std::string_view`. -/
abbrev Bytes := List Byte

/-- The bytes of a source text literal. -/
def ascii (text : String) : Bytes :=
  text.toList.map Char.toUInt8

end Eureka
