import Toft.Lib.Word

/-!
# Character classes

The predicates of `Ascii`. Its table holds the classes of the C locale, and none for the bytes from
128 on.
-/

namespace Toft.Ascii

def isUpper (c : UInt8) : Bool := 65 ≤ c && c ≤ 90

def isLower (c : UInt8) : Bool := 97 ≤ c && c ≤ 122

def isDigit (c : UInt8) : Bool := 48 ≤ c && c ≤ 57

def isHexDigit (c : UInt8) : Bool := isDigit c || (65 ≤ c && c ≤ 70) || (97 ≤ c && c ≤ 102)

/-- Tab, line feed, vertical tab, form feed, carriage return and the space. -/
def isSpace (c : UInt8) : Bool := (9 ≤ c && c ≤ 13) || c == 32

def toUpper (c : UInt8) : UInt8 := if isLower c then c - 32 else c

end Toft.Ascii
