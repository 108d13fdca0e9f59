/-
The program: the command line carried out on the real file system.

The files that a command names are looked up before it runs, and what it
wants written is written afterwards; in between everything is a function
of the words, the files, a random number and whether the run is verbose.
-/
import XorSpan.Cli.Run

namespace XorSpan.Cli

/-- The paths that a command reads. -/
def Command.paths : Command → List String
  | .solve target pool .. | .chart target pool _ | .validate target pool =>
      let paths := match target with
        | .text _ => [pool]
        | .file path => [path, pool]
      paths.filterMap Argument.value?
  | .demo .. => []

/-- What a path leads to, as far as reading it shows. -/
def findFile (path : String) : IO Found := do
  if let some problem := Path.problem? path then return .nothing problem
  try
    let bytes ← IO.FS.readBinFile path
    return .file bytes.size fun () => bytes.toList
  catch
    | .noFileOrDirectory .. => return .nothing .absent
    | .inappropriateType _ code _ =>
      return if code = 21 then .directory else .nothing .blocked
    | .invalidArgument _ 36 _ => return .nothing .tooLong
    | e => throw e

/-- The files that a command line reads, under their normal paths. -/
def findFiles (words : List String) : IO (List (String × Found)) :=
  match parse words with
  | .error _ => return []
  | .ok command => command.paths.mapM fun path => do
      let path := Path.normal path
      return (path, ← findFile path)

/-- A number nobody can foresee. -/
def drawEntropy : IO Nat := do
  let bytes ← IO.getRandomBytes 32
  return bytes.toList.foldl (fun n x => n * 256 + x.toNat) 0

def usage : String :=
  "usage: xorspan [-h] \x7bsolve,mermaid,validate,demo\x7d ...\n\n" ++
  "Find pool values whose XOR equals a target value.\n\n" ++
  "  solve     (--target HEX | --target-file FILE) --pool FILE\n" ++
  "            [--no-optimize] [--determinism-check] [--receipts FILE]\n" ++
  "  mermaid   (--target HEX | --target-file FILE) --pool FILE [--footer]\n" ++
  "  validate  (--target HEX | --target-file FILE) --pool FILE\n" ++
  "  demo      [--bytes N] [--seed N] [--no-optimize]\n"

end XorSpan.Cli

open XorSpan XorSpan.Cli in
def main (words : List String) : IO UInt32 := do
  let found ← findFiles words
  let verbose := (← IO.getEnv "XORSPAN_DEBUG").any (!·.isEmpty)
  let disk : Disk :=
    ⟨fun path => (found.lookup path).getD (.nothing .absent), fun _ => none⟩
  let outcome := run ⟨disk, ← drawEntropy, verbose⟩ words
  IO.print outcome.stdout
  if let some (path, text) := outcome.saved then IO.FS.writeFile path text
  IO.eprint outcome.stderr
  match outcome.ending with
  | .status code => return code.toUInt32
  | .stopped .help => IO.print usage; return 0
  | .stopped .misuse => IO.eprint usage; return 2
  | .fault fault => IO.eprintln fault.message; return 1
  | .capacity error => IO.eprintln error.message; return 1
  | .wrongKind error => IO.eprintln error.message; return 1
  | .disk error => IO.eprintln error.message; return 1
