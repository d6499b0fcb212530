import Toft.Lib.Word

/-!
# Sets of bytes

`ByteSet` is a set of byte values with a membership test. The predefined sets are filled with the
character classes of the C locale.
-/

namespace Toft

open Lib

/-- `ByteSet`, as the function object it is used as. -/
abbrev ByteSet := UInt8 → Bool

namespace ByteSet

/-- The bytes of the string. -/
def ofString (s : String) : ByteSet := fun c => (ascii s).contains c

/-- The union of two sets. -/
def or (a b : ByteSet) : ByteSet := fun c => a c || b c

def upperSet : ByteSet := fun c => 65 ≤ c && c ≤ 90

def lowerSet : ByteSet := fun c => 97 ≤ c && c ≤ 122

def digitSet : ByteSet := fun c => 48 ≤ c && c ≤ 57

def alphaSet : ByteSet := upperSet.or lowerSet

def alphaNumSet : ByteSet := alphaSet.or digitSet

def hexSet : ByteSet := fun c => digitSet c || (65 ≤ c && c ≤ 70) || (97 ≤ c && c ≤ 102)

end ByteSet

end Toft
