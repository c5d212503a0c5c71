import Readings.Command.Run

/-!
# The command line

Reads the arguments and the input, and writes what the command answers.
-/

namespace Readings.Command

/-- More steps than a run can take. -/
def enoughSteps : Nat :=
  4000000000000000000

/-- Everything on the standard input. -/
partial def readAllInput (input : IO.FS.Stream) (sofar : ByteArray) : IO ByteArray := do
  let more ← input.read 65536
  if more.isEmpty then return sofar
  readAllInput input (sofar ++ more)

/-- What the system says about a file that cannot be read. -/
def InputError.ofSystem : IO.Error → InputError
  | .noFileOrDirectory _ _ _ => .missing
  | .alreadyExists _ code reason => .system reason code.toNat
  | .otherError code reason => .system reason code.toNat
  | .resourceBusy code reason => .system reason code.toNat
  | .resourceVanished code reason => .system reason code.toNat
  | .unsupportedOperation code reason => .system reason code.toNat
  | .hardwareFault code reason => .system reason code.toNat
  | .unsatisfiedConstraints code reason => .system reason code.toNat
  | .illegalOperation code reason => .system reason code.toNat
  | .protocolError code reason => .system reason code.toNat
  | .timeExpired code reason => .system reason code.toNat
  | .interrupted _ code reason => .system reason code.toNat
  | .invalidArgument _ code reason => .system reason code.toNat
  | .permissionDenied _ code reason => .system reason code.toNat
  | .resourceExhausted _ code reason => .system reason code.toNat
  | .inappropriateType _ code reason => .system reason code.toNat
  | .noSuchThing _ code reason => .system reason code.toNat
  | .unexpectedEof => .notText
  | .userError reason => .system reason 0

/-- The bytes of the named input. -/
def readInput (file : String) : IO (Except InputError ByteArray) := do
  try
    if file = "-" then return .ok (← readAllInput (← IO.getStdin) .empty)
    else return .ok (← IO.FS.readBinFile file)
  catch error => return .error (.ofSystem error)

/-- The outcome for these arguments. -/
def outcomeFor (arguments : List String) : IO Outcome := do
  match Options.ofArguments arguments with
  | .error stop => return stop.outcome
  | .ok options =>
    let input ← readInput options.file
    return (conclude enoughSteps options input).getD (.failure "too many steps")

end Readings.Command

/-- Run the command. -/
def main (arguments : List String) : IO UInt32 := do
  let outcome ← Readings.Command.outcomeFor arguments
  (← IO.getStdout).putStr outcome.output
  (← IO.getStderr).putStr outcome.errors
  return outcome.code.toUInt32
