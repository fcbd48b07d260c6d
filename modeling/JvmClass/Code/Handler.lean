import JvmClass.Binary.Codec
import JvmClass.Code.Shift

/-!
# Exception handlers

An exception table lists, for ranges of a body, where control goes when an
exception of some class is thrown there.
-/

namespace JvmClass

/-- An entry of an exception table. -/
structure Handler where
  /-- The first position that the entry covers. -/
  start : UInt16
  /-- The first position that it covers no more. -/
  stop : UInt16
  /-- Where control goes. -/
  target : UInt16
  /-- The index of the class that is caught. Zero catches everything. -/
  catchType : UInt16
  deriving DecidableEq, Repr

namespace Handler

/-- An entry is its four fields in a row. -/
def codec : Codec Handler :=
  ((Codec.u16.pair Codec.u16).pair (Codec.u16.pair Codec.u16)).convert
    (fun ((start, stop), (target, catchType)) => { start, stop, target, catchType })
    (fun h => ((h.start, h.stop), (h.target, h.catchType)))

/-- The entry after bytes are inserted into the body. -/
def shift (s : Shift) (h : Handler) : Handler :=
  { h with
    start := s.target16 h.start
    stop := s.target16 h.stop
    target := s.target16 h.target }

/-- A position moved by an offset, if the result fits. -/
def movedPosition (offset : Nat) (position : UInt16) : Except Error UInt16 :=
  if position.toNat + offset ≤ 65535 then .ok (UInt16.ofNat (position.toNat + offset))
  else .error (.overflow .handlerPosition)

/-- The entry for the same code at another place. -/
def move (offset : Nat) (h : Handler) : Except Error Handler := do
  let start ← movedPosition offset h.start
  let stop ← movedPosition offset h.stop
  let target ← movedPosition offset h.target
  pure { start, stop, target, catchType := h.catchType }

end Handler

end JvmClass
