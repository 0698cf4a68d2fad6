import Dpll.CommandLine.Arguments
import Dpll.CommandLine.Help
import Dpll.CommandLine.Run

/-! The command line on the system. -/

namespace Dpll

/-- Programs on the system, which log up to a verbosity. -/
abbrev SystemM := ReaderT Verbosity IO

namespace SystemM

/-- The cause behind an error of the system. Some requests give their codes with a minus sign. -/
def fault (e : IO.Error) : Fault :=
  match e with
  | .noFileOrDirectory .. => .notFound
  | .inappropriateType _ code _ =>
    if code = 21 then .isDirectory
    else if code = 20 then .notDirectory
    else .other (toString e)
  | .invalidArgument _ code _ =>
    if code = 36 || code = -36 then .nameTooLong else .other (toString e)
  | .resourceExhausted _ code _ => if code = 28 then .noSpace else .other (toString e)
  | _ => .other (toString e)

/-- Makes a request of the system and catches its error. -/
def request {α : Type} (action : IO α) : SystemM (Except Fault α) := fun _ => do
  try return .ok (← action)
  catch e => return .error (fault e)

/-- Reads a stream to its end. -/
partial def readAll (stream : IO.FS.Stream) (bytes : ByteArray) : IO ByteArray := do
  let more ← stream.read 65536
  if more.isEmpty then return bytes else readAll stream (bytes ++ more)

/-- The memory that the system reports for this process, in pages of 4096 bytes. -/
def memoryUse : IO (Option MemoryUse) := do
  try
    let pages := (← IO.FS.readFile "/proc/self/statm").splitOn " "
    match pages.map String.toNat? with
    | some total :: some resident :: _ => return some ⟨4096 * total, 4096 * resident⟩
    | _ => return none
  catch _ => return none

instance : Host SystemM where
  isDirectory p := fun _ => do return ← ((← IO.currentDir) / p.text).isDir
  entries p := fun _ => do
    try
      (← ((← IO.currentDir) / p.text).readDir).toList.mapM fun entry => do
        return ⟨entry.fileName, (← entry.path.metadata).type matches .file⟩
    catch _ => return []
  readFile p := request do return (← IO.FS.readBinFile p.text).toList
  createFile p := request (IO.FS.writeBinFile p.text .empty)
  appendFile p text := request do
    let handle ← IO.FS.Handle.mk p.text .append
    handle.putStr text
    handle.flush
  readInput := request do return (← readAll (← IO.getStdin) .empty).toList
  readInputLine := request do return (← (← IO.getStdin).getLine).toUTF8.toList
  print text := fun _ => do
    let stream ← IO.getStdout
    stream.putStr text
    stream.flush
  log entry := fun verbosity => do
    if verbosity.admits entry.severity then IO.eprint entry.text
  admits severity := fun verbosity => return verbosity.admits severity
  clock := fun _ => IO.monoNanosNow
  memory := fun _ => memoryUse

end SystemM

end Dpll

open Dpll

/-- Does what the arguments ask for. -/
def main (arguments : List String) : IO UInt32 := do
  match Invocation.ofArguments arguments with
  | .error e =>
    IO.eprintln s!"error: {e.message}"
    return 2
  | .ok (.inquire question) =>
    IO.print question.answer
    return 0
  | .ok (.run command options) =>
    let verbosity := Verbosity.choose (← IO.getEnv "RUST_LOG") options.debug
    (command.run options : SystemM UInt32).run verbosity
