import RankedGrammar.Command.Run

/-! The program: it hands the surroundings to the command and prints what comes of it. -/
namespace RankedGrammar

/-- All bytes of a stream, after those already read. -/
partial def readBytes (stream : IO.FS.Stream) (read : ByteArray) : IO ByteArray := do
  let chunk ← stream.read 65536
  if chunk.isEmpty then return read else readBytes stream (read ++ chunk)

end RankedGrammar

def main (args : List String) : IO UInt32 := do
  let stdout ← IO.getStdout
  let debug := (← IO.getEnv "RULEWALK_DEBUG").isSome
  let stdin : IO ByteArray := do RankedGrammar.readBytes (← IO.getStdin) .empty
  let outcome ← RankedGrammar.Command.run IO.monoNanosNow stdin (← stdout.isTty) debug args
  stdout.putStr outcome.stdout
  (← IO.getStderr).putStr outcome.stderr
  return outcome.exitCode
