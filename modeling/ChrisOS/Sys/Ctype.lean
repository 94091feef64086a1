import Mathlib.Logic.Basic

/-!
# Character classes

The macros of `sys/ctype.h`, on bytes. They compare the value of the character; a negative `char`
is in none of the classes of letters, digits and spaces, and neither is the byte it is stored as.
-/

namespace ChrisOS.Sys

/-- A character constant of the source. -/
def chr (c : Char) : BitVec 8 := BitVec.ofNat 8 c.toNat

/-- `isspace`. -/
def isspace (c : BitVec 8) : Bool := c = chr ' ' ∨ chr '\t' ≤ c ∧ c ≤ chr '\r'

/-- `isascii`. -/
def isascii (c : BitVec 8) : Bool := c &&& ~~~0x7f = 0

/-- `isupper`. -/
def isupper (c : BitVec 8) : Bool := chr 'A' ≤ c ∧ c ≤ chr 'Z'

/-- `islower`. -/
def islower (c : BitVec 8) : Bool := chr 'a' ≤ c ∧ c ≤ chr 'z'

/-- `isalpha`. -/
def isalpha (c : BitVec 8) : Bool := isupper c ∨ islower c

/-- `isdigit`. -/
def isdigit (c : BitVec 8) : Bool := chr '0' ≤ c ∧ c ≤ chr '9'

/-- `toupper`. -/
def toupper (c : BitVec 8) : BitVec 8 := c - 0x20 * (if islower c then 1 else 0)

end ChrisOS.Sys
