import StepsLang.CommandLine

/-!
The program. It copies the files it may need into memory, carries out the command there, prints, and
writes back what has changed. It sees what is below the current directory and below the paths that
its arguments name.
-/

namespace StepsLang.Program

def placeOf (name : String) : List Bytes := Path.components (Path.normalize name)

def nameOf (place : List Bytes) : String :=
  let path : Bytes := place.flatMap (Byte.slash :: ·)
  (String.fromUTF8? ⟨path.toArray⟩).getD ""

partial def copy (files : Files) (name : String) : IO Files := do
  try
    let path ← IO.FS.realPath name
    match (← path.metadata).type with
    | .dir =>
      let mut files := files.makeDirectory (placeOf name)
      for entry in ← path.readDir do
        match (← entry.path.symlinkMetadata).type with
        | .dir | .file => files ← copy files (name ++ "/" ++ entry.fileName)
        | _ => pure ()
      return files
    | .file => return files.makeFile (placeOf name) (← IO.FS.readBinFile path).toList
    | _ => return files
  catch _ => return files

partial def readAll (stream : IO.FS.Stream) (before : Bytes) : IO Bytes := do
  let chunk ← stream.read 65536
  if chunk.isEmpty then return before else readAll stream (before ++ chunk.toList)

def surroundings (arguments : List String) : IO CommandLine.Host := do
  let here := (← IO.currentDir).toString
  let mut files ← copy { current := placeOf here } here
  for argument in arguments do
    files ← copy files (if argument.startsWith "/" then argument else here ++ "/" ++ argument)
  return {
    files
    random := ⟨← IO.monoNanosNow⟩
    traceSetting := (← IO.getEnv "STEPS_TRACE").map Bytes.ofString
    debugSetting := (← IO.getEnv "STEPS_DEBUG_DEBUGGER").map Bytes.ofString }

def answer (host : CommandLine.Host) (arguments : List Bytes) : IO CommandLine.Answer := do
  let answer := CommandLine.perform host arguments
  if answer.reads == 0 then return answer
  else return CommandLine.perform { host with input := ← readAll (← IO.getStdin) [] } arguments

end StepsLang.Program

open StepsLang in
def main (arguments : List String) : IO UInt32 := do
  let host ← Program.surroundings arguments
  let answer ← Program.answer host (arguments.map Bytes.ofString)
  for (place, content) in Files.changes host.files answer.files do
    IO.FS.writeBinFile (Program.nameOf place) ⟨content.toArray⟩
  (← IO.getStdout).write ⟨answer.out.toArray⟩
  (← IO.getStderr).write ⟨answer.err.toArray⟩
  return answer.code.toUInt32
