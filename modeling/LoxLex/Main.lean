import LoxLex.Program

/-!
The command line: hands arguments, files and lines to the program and writes what it logs.
-/

namespace LoxLex.Program

/-- Writes what a log holds, in the order in which it came. -/
def writeOut (log : Log) : IO Unit := do
  for (stream, text) in log.written do
    let output ← match stream with
      | .stderr => IO.getStderr
      | _ => IO.getStdout
    output.write ⟨text.toArray⟩
    output.flush

/-- Reads up to a newline, which is left out; `none` if there is nothing more to read. -/
partial def readLine? (input : IO.FS.Stream) (line : Bytes) : IO (Option Bytes) := do
  match (← input.read 1).toList with
  | [] => return if line.isEmpty then none else some line.reverse
  | b :: _ => if b = Byte.newline then return some line.reverse else readLine? input (b :: line)

/-- Answers lines until the input ends. -/
partial def converse (options : Options) (settings : Channel → Channel.Setting) : IO Unit := do
  writeOut (prompt {})
  match ← readLine? (← IO.getStdin) [] with
  | some line =>
    writeOut (answerLine options { settings } line)
    converse options settings
  | none => writeOut (Log.print {} .stdout (ascii "\n"))

/-- The text of what is at `path`, if it can be opened. A directory can, but there is nothing to
read in it. -/
def readFile? (path : String) : IO (Option Bytes) := do
  match ← (IO.FS.Handle.mk path .read).toBaseIO with
  | .error _ => return none
  | .ok file =>
    match ← (file.readBinToEnd).toBaseIO with
    | .ok text => return some text.toList
    | .error _ => return some []

end LoxLex.Program

open LoxLex in
/-- The `lox` command. -/
def main (arguments : List String) : IO UInt32 := do
  match Program.start (arguments.map fun a => a.toUTF8.toList) with
  | .error log =>
    Program.writeOut log
    return Status.usage.code
  | .ok (options, log) =>
    match options.script with
    | none =>
      Program.converse options log.settings
      return Status.ok.code
    | some path =>
      let text ← Program.readFile? ((String.fromUTF8? ⟨path.toArray⟩).getD "")
      let (status, log) := Program.runScript (fun _ => text) options path log
      Program.writeOut log
      return status.code
