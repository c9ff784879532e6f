import CallRelay.Source

/-! # Prerecorded clips

A clip is played from its start, once. Its samples have two bytes, so that an odd byte at its end is
never played. Offsets are 64-bit words, and the end of a request is the sum of two of them: a request
that reaches past the largest word panics. -/

namespace CallRelay

/-- A clip and how much of it was handed out. -/
structure Clip where
  data : Bytes
  offset : Nat := 0
  deriving DecidableEq, Repr

namespace Clip

/-- The length of the whole samples. -/
def playable (c : Clip) : Nat := c.data.length / 2 * 2

/-- The bytes not yet handed out. -/
def remaining (c : Clip) : Nat := c.playable - c.offset

/-- Where a request for `room` bytes ends. -/
def requestEnd (c : Clip) (room : Nat) : Nat := min c.playable (c.offset + room)

/-- The answer to a request whose end is a word: the next chunk, if there is one, and the clip behind it. -/
def take (c : Clip) (room : Nat) : Option Bytes × Clip :=
  let last := c.requestEnd room
  if c.offset < last then (some ((c.data.drop c.offset).take (last - c.offset)), { c with offset := last })
  else (none, c)

/-- Tells whether a request for `room` bytes ends within the words. -/
def Reaches (c : Clip) (room : Nat) : Prop := c.offset + room < UInt64.size

instance (c : Clip) (room : Nat) : Decidable (c.Reaches room) := inferInstanceAs (Decidable (_ < _))

/-- The answer to a request; there is none if it panics. -/
def take? (c : Clip) (room : Nat) : Option (Option Bytes × Clip) := if c.Reaches room then some (c.take room) else none

/-- What is logged when a clip is loaded into a source. -/
def lines (c : Clip) : List Line :=
  if c.data.length % 2 = 0 then []
  else [.plain .warn ("Clip of " ++ toString c.data.length ++ " bytes has an odd length, ignoring the trailing byte")]

/-- A clip answers at once. It is taken to be at its end for a request that panics: no session makes one of a clip
    in memory. -/
def source : Source Clip where
  next c room _ :=
    match c.take? room with
    | some (some b, c) => some { delay := 0, supply := .chunk b, source := c }
    | some (none, c) => some { delay := 0, supply := .done, source := c }
    | none => some { delay := 0, supply := .done, source := c }
  dropped c _ _ _ := c

end Clip
end CallRelay
