import Mathlib.Data.List.Infix
import Tig.Lib.Utf8

set_option relaxedAutoImplicit false
set_option autoImplicit false

/-!
# Text

What comparing and searching files needs to know about text: when a file is binary, what its
lines are. The line diff, the regular expressions and the lower case of Unicode come from
libraries, which enter as a structure of functions.

## Main definitions

* `Tig.TextLib` — what is computed by libraries.
* `Tig.trim` — text without the white space around it.
* `Tig.isBinary`, `Tig.lines`, `Tig.stripEol` — files and their lines.
-/

namespace Tig

/-! ## Libraries -/

/-- What a line diff says of a line. -/
inductive ChangeTag where
  | equal
  | insert
  | delete
deriving DecidableEq, Repr

/-- One line of a line diff, with its ending, and where it stands on either side. -/
structure LineChange where
  tag : ChangeTag
  oldIndex : Option Nat
  newIndex : Option Nat
  value : String
deriving DecidableEq, Repr

/-- The functions on text that are computed by libraries. -/
structure TextLib where
  /-- The line diff of two texts. -/
  lineChanges : String → String → List LineChange
  /-- The line diff of two texts in hunks, with some lines of context around the changes. -/
  hunkChanges : Nat → String → String → List (List LineChange)
  /-- The matcher of a regular expression, which may ignore case. -/
  regex : String → Bool → Except String (String → Bool)
  lowercase : String → String

/-! ## White space -/

/-- Does a character count as white space? -/
def isWhiteSpace (c : Char) : Bool :=
  let n := c.toNat
  9 ≤ n && n ≤ 13 || n = 32 || n = 0x85 || n = 0xA0 || n = 0x1680 || 0x2000 ≤ n && n ≤ 0x200A ||
    n = 0x2028 || n = 0x2029 || n = 0x202F || n = 0x205F || n = 0x3000

/-- A string without the white space around it. -/
def trim (s : String) : String :=
  String.ofList ((s.toList.dropWhile isWhiteSpace).reverse.dropWhile isWhiteSpace).reverse

/-! ## Files and lines -/

/-- Is there a NUL among the first bytes? -/
def isBinary (bytes : List UInt8) : Bool := (bytes.take 8192).contains 0

/-- Characters without a given last one. -/
def stripLast (c : Char) (cs : List Char) : List Char :=
  if cs.getLast? = some c then cs.dropLast else cs

/-- A line of a line diff without its ending. -/
def stripEol (s : String) : String := String.ofList (stripLast '\r' (stripLast '\n' s.toList))

/-- The pieces of a text that end with a newline, or with the text. -/
def splitInclusive : List Char → List (List Char)
  | [] => []
  | c :: cs =>
    if c = '\n' then [c] :: splitInclusive cs
    else
      match splitInclusive cs with
      | [] => [[c]]
      | line :: rest => (c :: line) :: rest

/-- The lines of a text, without their endings. A carriage return is part of an ending only in
front of a newline. -/
def lines (s : String) : List String :=
  (splitInclusive s.toList).map fun line =>
    String.ofList (if line.getLast? = some '\n' then stripLast '\r' line.dropLast else line)

example : lines "a\r\n\nb\r" = ["a", "", "b\r"] := by decide

/-- Does a string start with another one? -/
def startsWith (s start : String) : Bool := start.toList <+: s.toList

/-- Does a string have another one in it? -/
def containsText (s needle : String) : Bool := needle.toList <:+: s.toList

end Tig
