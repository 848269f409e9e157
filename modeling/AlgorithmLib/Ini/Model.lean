import AlgorithmLib.Library.CInt
import AlgorithmLib.Library.Text

/-!
`ini_file.c`: the value of a key is read from the first line that has the key, and a key and its
value are appended as a line of their own. A line is the text up to its NUL; pointers into it are
counted from its beginning.
-/

set_option autoImplicit false

namespace AlgorithmLib.Ini

open CInt

def equals : UInt8 := 61

def hash : UInt8 := 35

def newline : UInt8 := 10

/-- `' '` or `'\t'` -/
def isBlank (c : UInt8) : Bool := c == 32 || c == 9

/-- The characters that `ini_trim_right` skips: a blank, `'\r'` or `'\n'`. -/
def isSpace (c : UInt8) : Bool := isBlank c || c == 13 || c == 10

/-- `ini_trim_left`, with what is left of the string. -/
def iniTrimLeft : List UInt8 → Option (List UInt8)
  | [] => none
  | c :: str => if isBlank c then iniTrimLeft str else if c = hash then none else some (c :: str)

/-- The loop of `ini_trim_right`, which does not look at the first character. -/
def iniTrimRightLoop (str : List UInt8) : Nat → Option Nat
  | 0 => none
  | len + 1 => if isSpace (str.getD (len + 1) 0) then iniTrimRightLoop str len else some (len + 1)

/-- `ini_trim_right` of a string that is not empty. -/
def iniTrimRight (str : List UInt8) : Option Nat := iniTrimRightLoop str (str.length - 1)

/-- Where `ini_read_string` copies from, and `len`. -/
structure Copy where
  start : Nat
  len : Int
  deriving DecidableEq, Repr

/-- One turn of the loop of `ini_read_string`; `none` is `continue`. -/
def iniCopy (line key : List UInt8) : Option Copy := do
  let first ← iniTrimLeft line
  let last ← iniTrimRight first
  guard (first.take key.length = key)
  let begin ← iniTrimLeft (first.drop key.length)
  let begin ← iniTrimLeft begin
  guard (begin.head? = some equals)
  let begin ← iniTrimLeft begin.tail
  let start := line.length - begin.length
  let last := line.length - first.length + last
  some { start := start, len := (last : Int) - start + 1 }

/-- `memcpy` reads up to the end of the line at most, and with the final NUL `value` is not
overrun. -/
structure Copy.InBounds (c : Copy) (line : List UInt8) (valueLen : Int) : Prop where
  nonneg : 0 ≤ c.len
  read : c.len ≤ (line.drop c.start).length
  written : (sizeT c.len : Int) + 1 ≤ valueLen

theorem Copy.inBounds_iff (c : Copy) (line : List UInt8) (valueLen : Int) :
    c.InBounds line valueLen ↔
      0 ≤ c.len ∧ c.len ≤ (line.drop c.start).length ∧ (sizeT c.len : Int) + 1 ≤ valueLen :=
  ⟨fun h => ⟨h.nonneg, h.read, h.written⟩, fun h => ⟨h.1, h.2.1, h.2.2⟩⟩

instance (c : Copy) (line : List UInt8) (valueLen : Int) : Decidable (c.InBounds line valueLen) :=
  decidable_of_iff' _ (c.inBounds_iff line valueLen)

inductive ReadResult where
  | ok (value : List UInt8)
  | failed
  | outOfBounds
  deriving DecidableEq, Repr

/-- The copy to `value`, which has `valueLen` bytes. -/
def Copy.run (c : Copy) (line : List UInt8) (valueLen : Int) : ReadResult :=
  if valueLen ≥ c.len + 1 then
    if c.InBounds line valueLen then .ok ((line.drop c.start).take (sizeT c.len)) else .outOfBounds
  else .failed

/-- What of `buf` is a string. -/
def cString (buf : List UInt8) : List UInt8 := buf.takeWhile (· != 0)

/-- What `fgets` with a buffer of `2047` bytes reads of a file, call for call. -/
def fgetsLines (file : List UInt8) : List (List UInt8) := (Text.Reader.scan newline 2046 file).lines

/-- `ini_read_string`; a file that is not there is like an empty one. -/
def iniReadString (file key : List UInt8) (valueLen : Int) : ReadResult :=
  ((fgetsLines file).findSome? fun buf =>
    (iniCopy (cString buf) key).map (Copy.run · (cString buf) valueLen)).getD .failed

def iniAppendString (file key value : List UInt8) : List UInt8 :=
  file ++ (key ++ equals :: value) ++ [newline]

example : iniReadString "a=1\n b = two \n".toUTF8.toList "b".toUTF8.toList 128 =
    .ok "two".toUTF8.toList := by decide +kernel

end AlgorithmLib.Ini
