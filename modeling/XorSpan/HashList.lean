/-
Hash lists: text files with one hex value to a line. Blanks around a
line do not count, nor do blank lines and lines that begin with a comment
mark. Every other line has to be hex text.

A file beyond the size limit is refused before it is read. The text is
decoded before its lines are looked at, so text that cannot be decoded
spoils the whole file, except that a character cut off by the end of the
file is only met after all lines that have an ending.
-/
import XorSpan.Disk
import XorSpan.Parameters
import XorSpan.Bytes.Hex
import XorSpan.Text.Blank
import XorSpan.Text.Lines
import XorSpan.Text.Utf8

namespace XorSpan

/-- Why a hash list cannot be read. Lines count from 1. -/
inductive HashListError where
  | disk (error : DiskError)
  | tooLarge (path : String)
  | notText (error : Text.Utf8Error)
  | badLine (path : String) (line : Nat) (text : String)
deriving DecidableEq, Repr

def HashListError.message : HashListError → String
  | .disk error => error.message
  | .tooLarge path =>
      s!"File '{path}' is larger than {Parameters.hashListLimit} bytes"
  | .notText error => error.message
  | .badLine path line text => s!"{path}:{line}: Invalid hash: '{text}'"

namespace HashList

/-- The value of a line, if the line has one to give. -/
def readLine (path : String) (number : Nat) (line : List Char) :
    Except HashListError (Option Bytes) :=
  match Text.trim line with
  | [] => .ok none
  | c :: cs =>
      if Parameters.commentMarks.contains c then .ok none
      else match Bytes.readHex #[] (c :: cs) with
        | some value => .ok (some value)
        | none => .error (.badLine path number (String.ofList (c :: cs)))

/-- Reads lines from number `number` on, putting their values in front
of those already read. -/
def readLines (path : String) (number : Nat) (read : List Bytes) :
    List (List Char) → Except HashListError (List Bytes)
  | [] => .ok read.reverse
  | line :: lines =>
      match readLine path number line with
      | .error e => .error e
      | .ok none => readLines path (number + 1) read lines
      | .ok (some value) => readLines path (number + 1) (value :: read) lines

/-- The lines that are known to have ended when the text breaks off: a
carriage return at the very end might still have been followed by a
line feed. -/
def settledLines (text : List Char) : List (List Char) :=
  (Text.splitLines
    (if text.getLast? = some '\r' then text.dropLast else text)).1

def parse (path : String) (bytes : List UInt8) :
    Except HashListError (List Bytes) :=
  match Text.decodeUtf8 bytes with
  | (text, .complete) => readLines path 1 [] (Text.lines text)
  | (_, .broken error) => .error (.notText error)
  | (text, .cut error) =>
      match readLines path 1 [] (settledLines text) with
      | .error e => .error e
      | .ok _ => .error (.notText error)

def read (disk : Disk) (path : String) : Except HashListError (List Bytes) :=
  let path := Path.normal path
  match disk.find path with
  | .nothing problem => .error (.disk ⟨problem, path⟩)
  | .directory => .error (.disk ⟨.directory, path⟩)
  | .file size contents =>
      if size > Parameters.hashListLimit then .error (.tooLarge path)
      else parse path (contents ())

end HashList

end XorSpan
