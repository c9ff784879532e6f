import CallRelay.Wire.Message

/-! # Reading from a blocking stream

A blocking stream hands out its bytes in pieces and may fail between them. A message is read by
filling first its header and then its payload, never asking for more bytes than are missing. -/

namespace CallRelay

/-- What one read of a blocking stream finds: the bytes of a piece, or a fault, which is reported once.
    A piece without bytes is an end of the stream for one read. -/
inductive Piece
  | bytes (b : Bytes)
  | fault (f : Fault)
  deriving DecidableEq

namespace Stream

/-- The bytes that a stream still holds. -/
def left : List Piece → Nat
  | [] => 0
  | .bytes b :: rest => b.length + left rest
  | .fault _ :: rest => left rest

/-- Reads `n` bytes, or fewer if the stream ends before. Interrupted reads are tried again; at any other
    fault the bytes read so far are lost. -/
def fill (n : Nat) : List Piece → Except Fault Bytes × List Piece
  | [] => (.ok [], [])
  | .fault f :: rest =>
    if n = 0 then (.ok [], .fault f :: rest)
    else if f.kind = .interrupted then fill n rest
    else (.error f, rest)
  | .bytes b :: rest =>
    if n = 0 then (.ok [], .bytes b :: rest)
    else if b = [] then (.ok [], rest)
    else if n < b.length then (.ok (b.take n), .bytes (b.drop n) :: rest)
    else
      let later := fill (n - b.length) rest
      (later.1.map (b ++ ·), later.2)

/-- Reads the next message. -/
def readMessage (stream : List Piece) : Except CodecFault Message × List Piece :=
  match fill headerLength stream with
  | (.error f, rest) => (.error (.io f), rest)
  | (.ok [rawKind, hi, lo], rest) =>
    let size := wordValue hi lo
    match fill size rest with
    | (.error f, rest) => (.error (.io f), rest)
    | (.ok body, rest) =>
      if body.length < size then (.error (.incompleteBody size body.length), rest)
      else (Message.make rawKind body, rest)
  | (.ok short, rest) => (.error (.incompleteHeader short.length), rest)

/-- Reads `n` times, going on behind every fault. -/
def readMessages : Nat → List Piece → List (Except CodecFault Message) × List Piece
  | 0, stream => ([], stream)
  | n + 1, stream =>
    let (first, stream) := readMessage stream
    let (others, stream) := readMessages n stream
    (first :: others, stream)

end Stream
end CallRelay
