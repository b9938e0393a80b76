import TzzeroHttp.ByteText

/-! The logger with the file system it writes to. Every line goes to the console and, once an
output file is set, to that file; a file that has reached the size limit is rotated away. File
operations and stream opens succeed. -/
namespace TzzeroHttp.LoggerModel
open ByteText

inductive LogLevel
  | debug | info | warn | error | fatal
  deriving DecidableEq, Repr

def LogLevel.toNat : LogLevel → ℕ
  | .debug => 0
  | .info => 1
  | .warn => 2
  | .error => 3
  | .fatal => 4

def levelToString : LogLevel → Bytes
  | .debug => ascii "DEBUG"
  | .info => ascii "INFO "
  | .warn => ascii "WARN "
  | .error => ascii "ERROR"
  | .fatal => ascii "FATAL"

abbrev Files := Bytes → Option Bytes

namespace Files

def remove (files : Files) (name : Bytes) : Files := Function.update files name none

/-- `std::filesystem::rename`, which replaces a file of the new name. -/
def rename (files : Files) (old new : Bytes) : Files :=
  Function.update (Function.update files new (files old)) old none

end Files

/-- `output_file_ + "." + std::to_string(i)`. -/
def numbered (base : Bytes) (i : ℕ) : Bytes := base ++ ascii "." ++ decimal i

/-- `fileStream` is the name of the file that is open for writing, `console` what was written to
the standard output, by lines. -/
structure Logger where
  level : LogLevel := .info
  outputFile : Bytes := []
  fileStream : Option Bytes := none
  currentFileSize : ℕ := 0
  maxFileSize : ℕ := 100 * 1024 * 1024
  maxFiles : ℤ := 10
  files : Files := fun _ => none
  console : List Bytes := []

namespace Logger

/-- Opened in append mode: what the file holds already counts. -/
def setOutputFile (filename : Bytes) (l : Logger) : Logger :=
  if filename = [] then { l with outputFile := filename, fileStream := none, currentFileSize := 0 }
  else
    let content := (l.files filename).getD []
    { l with
      outputFile := filename, fileStream := some filename, currentFileSize := content.length
      files := Function.update l.files filename (some content) }

def setMaxFiles (maxFiles : ℤ) (l : Logger) : Logger := { l with maxFiles := maxFiles }

/-- One turn of the rotation loop: the oldest file goes, every other one moves up by one. -/
def shiftFile (base : Bytes) (maxFiles : ℤ) (i : ℕ) (files : Files) : Files :=
  if (files (numbered base i)).isSome then
    if (i : ℤ) = maxFiles - 1 then files.remove (numbered base i)
    else files.rename (numbered base i) (numbered base (i + 1))
  else files

/-- The turns for `i`, `i - 1`, ..., 1. -/
def shiftFrom (base : Bytes) (maxFiles : ℤ) : ℕ → Files → Files
  | 0, files => files
  | i + 1, files => shiftFrom base maxFiles i (shiftFile base maxFiles (i + 1) files)

def rotateLogFile (l : Logger) : Logger :=
  if l.outputFile = [] then l
  else
    let files := shiftFrom l.outputFile l.maxFiles (l.maxFiles - 1).toNat l.files
    let files :=
      if (files l.outputFile).isSome then files.rename l.outputFile (numbered l.outputFile 1) else files
    { l with
      files := Function.update files l.outputFile (some [])
      fileStream := some l.outputFile, currentFileSize := 0 }

/-- What both `log` overloads do with the line they have put together. -/
def emit (line : Bytes) (l : Logger) : Logger :=
  let l := { l with console := l.console ++ [line] }
  match l.fileStream with
  | none => l
  | some name =>
    if l.outputFile = [] then l
    else
      let l := { l with
        files := Function.update l.files name (some ((l.files name).getD [] ++ line ++ [lf]))
        currentFileSize := l.currentFileSize + (line.length + 1) }
      if l.maxFileSize ≤ l.currentFileSize then l.rotateLogFile else l

end Logger

inductive Call
  | log (level : LogLevel) (timestamp message : Bytes)
  | logAt (level : LogLevel) (timestamp file : Bytes) (line : Int32) (message : Bytes)

namespace Call

def level : Call → LogLevel
  | .log level _ _ => level
  | .logAt level _ _ _ _ => level

def logLine : Call → Bytes
  | .log level timestamp message =>
    ascii "[" ++ timestamp ++ ascii "] " ++ ascii "[" ++ levelToString level ++ ascii "] " ++ message
  | .logAt level timestamp file line message =>
    ascii "[" ++ timestamp ++ ascii "] " ++ ascii "[" ++ levelToString level ++ ascii "] " ++
      ascii "[" ++ file ++ ascii ":" ++ signedDecimal line.toInt ++ ascii "] " ++ message

def Passes (threshold : LogLevel) (c : Call) : Prop := threshold.toNat ≤ c.level.toNat

instance (threshold : LogLevel) : DecidablePred (Passes threshold) :=
  fun _ => inferInstanceAs (Decidable (_ ≤ _))

end Call

def Logger.log (l : Logger) (c : Call) : Logger := if c.Passes l.level then l.emit c.logLine else l

end TzzeroHttp.LoggerModel
