import Seastar.Lib.Except

/-!
How the modelled C++ can stop being defined. A function that may abort, fail an
assertion or touch memory it does not own, or that throws, returns `Except Fault`; the
fault names which of these happened first.
-/

namespace Seastar

/-- What goes wrong in a call that does not return normally. -/
inductive Fault
  /-- a null `get_header` result is dereferenced -/
  | nullHeader
  /-- `trim_front` or `trim_back` by more than the packet holds -/
  | trimTooLong
  /-- `share` of a range that leaves the packet -/
  | shareTooLong
  /-- a read past the contiguous memory a pointer was given for -/
  | readPast
  /-- a write past the end of a buffer -/
  | writePast
  /-- `std::out_of_range` of an output stream that is full -/
  | bufferOverflow
  /-- `std::out_of_range` of an input stream that has less than is asked for -/
  | bufferUnderflow
  /-- `std::overflow_error` of an `sstring` that is too long, as one from a null pointer is -/
  | sstringOverflow
  /-- `std::out_of_range` of a position outside a string or a key that is not in a map -/
  | outOfRange
  /-- `std::runtime_error` of a compressor -/
  | compressionFailed
  /-- `len()` of a packet whose `_impl` was moved away -/
  | movedPacket
  /-- `front()` of an empty queue, or `top()` of an empty stack -/
  | emptyQueue
  /-- a member of an object that was destroyed -/
  | destroyed
  /-- a failed `assert` -/
  | assertFailed
  /-- the `assert` of `output_one`: more than a probe into a closed window -/
  | closedWindow
  /-- an explicit `abort()` -/
  | aborted
  /-- an integer division by zero -/
  | divideByZero
  /-- a shift by the width of the type or more -/
  | shiftTooFar
  /-- an object read, assigned or destroyed where there is none -/
  | noObject
  /-- a slot outside an array -/
  | outOfBounds
  /-- the end of a function that has to return a value -/
  | noReturn
  /-- a null pointer is followed -/
  | nullPointer
  /-- `std::bad_alloc` -/
  | badAlloc
  deriving DecidableEq, Repr

end Seastar
