import JvmClass.Binary.Codec
import JvmClass.Code.Shift

/-!
# Line numbers

A line number table maps ranges of a body to source lines. Its entries are
ordered by the position at which their line starts.
-/

namespace JvmClass

/-- An entry of a line number table. -/
structure LineNumber where
  /-- The first position of the line. -/
  start : UInt16
  /-- The line. -/
  line : UInt16
  deriving DecidableEq, Repr

namespace LineNumber

/-- An entry is its two fields in a row. -/
def codec : Codec LineNumber :=
  (Codec.u16.pair Codec.u16).convert (fun (start, line) => { start, line })
    (fun e => (e.start, e.line))

/-- The entry after bytes are inserted into the body. -/
def shift (s : Shift) (e : LineNumber) : LineNumber := { e with start := s.target16 e.start }

/-- The line of the instruction at a position. A position before the first
entry belongs to the first line; an empty table knows no line. -/
def lineAt? (table : List LineNumber) (position : Nat) : Option UInt16 :=
  let started := table.takeWhile fun e => e.start.toNat ≤ position
  (started.getLast? <|> table.head?).map line

/-- The first position recorded for a line. -/
def startOf? (table : List LineNumber) (line : UInt16) : Option UInt16 :=
  (table.find? fun e => e.line == line).map start

end LineNumber

end JvmClass
