import JobShell.CommandLine
import JobShell.Host.World

/-!
The program: a run on standard input, in a fresh working directory.
-/
namespace JobShell

/-- Does nothing, for ever. -/
partial def idle : IO UInt32 := do
  IO.sleep 1000
  idle

/-- Reads standard input to its end. -/
partial def readInput (stdin : IO.FS.Stream) (acc : ByteArray) : IO ByteArray := do
  let piece ← stdin.read 65536
  if piece.isEmpty then return acc else readInput stdin (acc ++ piece)

end JobShell
