/-
Where printed text goes: bytes in the order in which they were written, up to a limit if there is one.
-/
import Lox.Machine.Fault

namespace Lox

/-- The bytes written so far, how many it can be at most, and whether they can be flushed. -/
structure Sink where
  written : ByteArray
  limit : Option Nat
  flushes : Bool

namespace Sink

/-- A sink that takes everything. -/
def unlimited : Sink := ⟨.empty, none, true⟩

/-- How many of `count` more bytes a sink takes. -/
def room (s : Sink) (count : Nat) : Nat :=
  match s.limit with
  | none => count
  | some limit => min count (limit - s.written.size)

/-- Writes as many bytes as there is room for, and says whether that was all of them. -/
def write (s : Sink) (bytes : ByteArray) : Sink × Bool :=
  let room := s.room bytes.size
  if room = bytes.size then ({ s with written := s.written ++ bytes }, true)
  else ({ s with written := s.written ++ bytes.extract 0 room }, false)

/-- The fault of flushing, if there is one. -/
def flushFault? (s : Sink) : Option SinkFault := if s.flushes then none else some .flushRefused

end Sink

end Lox
