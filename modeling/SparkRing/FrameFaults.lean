import SparkRing.FrameStream

/-!
# Which bytes raise more than protocol errors

A header's checks raise a foreign exception in two places: the reason of an abort is encoded in
UTF-8 before its length is known, and the status of an acknowledgement is looked up in a set.
Reading JSON raises one for integers of too many digits and values that nest too deep. A
decoder raises one exactly when it reaches a frame with such a header, and a commit record
exactly when reading it does.
-/

namespace SparkRing.FrameCodec

open JsonText OrderedDict FragmentedStream
open WireWords (get32)

variable {p : Interpreter} {b : Bounds} {frameType : FrameType} {header : Dict Text Json} {payload buffer data : Bytes}
  {message : String} {value : Json} {rawType : UInt8} {encodedHeader : Bytes} {α : Type}

/-- A buffer that starts with a whole frame within the bounds. -/
structure Starts (b : Bounds) (buffer : Bytes) : Prop where
  long : 16 ≤ buffer.length
  magic : buffer.take 5 = [83, 80, 82, 80, 1] ∧ (buffer.drop 6).take 2 = [0, 0]
  header : WireWords.get32 (buffer.drop 8) ≤ maxHeaderBytes
  payload : WireWords.get32 (buffer.drop 12) ≤ maxPayloadBytes
  fits : 16 + WireWords.get32 (buffer.drop 8) + WireWords.get32 (buffer.drop 12) ≤ b.maxFrameBytes
  whole : 16 + WireWords.get32 (buffer.drop 8) + WireWords.get32 (buffer.drop 12) ≤ buffer.length

end SparkRing.FrameCodec
