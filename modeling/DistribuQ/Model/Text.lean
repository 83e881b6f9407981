import Mathlib.Data.List.DropRight
import DistribuQ.Model.Schema

/-! Python's `str` as a list of characters, in the Unicode 15.1 of Python 3.13: what strips, splits, reads and
folds it. -/

namespace DistribuQ

/-- The exceptions of `worker/recurrence.py` and of what it calls. -/
inductive PyException
  | valueError (message : String)
  | overflowError (message : String)
  /-- Any exception of `croniter`. -/
  | croniter
  deriving DecidableEq

namespace Text

/-- The code points of whitespace. -/
def isSpaceCode (n : Nat) : Bool :=
  9 ≤ n && n ≤ 13 || 28 ≤ n && n ≤ 32 || 0x2000 ≤ n && n ≤ 0x200A ||
    [0x85, 0xA0, 0x1680, 0x2028, 0x2029, 0x202F, 0x205F, 0x3000].contains n

/-- `str.isspace()`, the whitespace of `str.strip()` and of `\s`. -/
def isSpace (c : Char) : Bool := isSpaceCode c.toNat

/-- The zeros of the decimal digits, each the first of ten. -/
def zeros : List Nat :=
  [0x30, 0x660, 0x6F0, 0x7C0, 0x966, 0x9E6, 0xA66, 0xAE6, 0xB66, 0xBE6, 0xC66, 0xCE6, 0xD66, 0xDE6, 0xE50, 0xED0,
    0xF20, 0x1040, 0x1090, 0x17E0, 0x1810, 0x1946, 0x19D0, 0x1A80, 0x1A90, 0x1B50, 0x1BB0, 0x1C40, 0x1C50, 0xA620,
    0xA8D0, 0xA900, 0xA9D0, 0xA9F0, 0xAA50, 0xABF0, 0xFF10, 0x104A0, 0x10D30, 0x11066, 0x110F0, 0x11136, 0x111D0,
    0x112F0, 0x11450, 0x114D0, 0x11650, 0x116C0, 0x11730, 0x118E0, 0x11950, 0x11C50, 0x11D50, 0x11DA0, 0x11F50,
    0x16A60, 0x16AC0, 0x16B50, 0x1D7CE, 0x1D7D8, 0x1D7E2, 0x1D7EC, 0x1D7F6, 0x1E140, 0x1E2F0, 0x1E4F0, 0x1E950,
    0x1FBF0]

/-- The value of a decimal digit. -/
def decimal? (c : Char) : Option Nat :=
  (zeros.find? fun z => z ≤ c.toNat && c.toNat < z + 10).map fun z => c.toNat - z

/-- `str.isdecimal()`, the digits of `\d` and of `int()`. -/
def isDecimal (c : Char) : Bool := (decimal? c).isSome

/-- What a letter of a pattern matches under `re.IGNORECASE`; the long s is an s too. -/
def ignoreCase (letter c : Char) : Bool := c.toLower = letter || letter = 's' && c = 'ſ'

def strip (s : List Char) : List Char := (s.dropWhile isSpace).rdropWhile isSpace

/-- `str.split()`. -/
def split (s : List Char) : List (List Char) := (s.splitOnP isSpace).filter fun field => !field.isEmpty

def maxStrDigits : Nat := 4300

/-- `int()` of decimal digits. -/
def int (ds : List Char) : Except PyException Nat :=
  if maxStrDigits < ds.length then
    .error (.valueError (s!"Exceeds the limit (4300 digits) for integer string conversion: value has {ds.length}"
      ++ " digits; use sys.set_int_max_str_digits() to increase the limit"))
  else .ok (ds.foldl (fun n c => 10 * n + (decimal? c).getD 0) 0)

end Text
end DistribuQ
