import JackVM.ClassCode
import JackVM.FileTask
import JackVM.SourcePath

namespace JackVM

/-- Why a source file was not found or not compiled. -/
inductive FileError where
  | compile (error : CompileError)
  | file (path : String) (fault : FileFault)
  | notSource (path : String)
  | withoutSources (path : String)
  deriving DecidableEq, Repr

namespace FileError

def message : FileError → String
  | compile error => error.message
  | file path fault => s!"{path}: {fault.text}"
  | notSource path => s!"{path}: not a .jack file"
  | withoutSources path => s!"{path}: directory contains no .jack files"

/-- The texts of the errors behind an error, nearest first. -/
def causes : FileError → List String
  | compile error => error.causes
  | file _ fault => [fault.text]
  | notSource _ | withoutSources _ => []

def fullMessage (e : FileError) : String :=
  ": ".intercalate (e.message :: e.causes)

end FileError

def readText (path : String) : FileTask (Except FileError String) := do
  match ← FileTask.request (.read path) with
  | .error fault => pure (.error (.file path fault))
  | .ok content =>
    match String.fromUTF8? content with
    | some text => pure (.ok text)
    | none => pure (.error (.file path .invalidText))

/-- Writes the output to a temporary file that then takes its place, so that at no time the output
is there in part. -/
def replaceOutput (output text : String) : FileTask (Except FileError Unit) := do
  let temporary := temporaryPath output
  match ← FileTask.request (.write temporary text.toUTF8) with
  | .error fault => do
    let _ ← FileTask.request (.remove temporary)
    pure (.error (.file output fault))
  | .ok _ =>
    match ← FileTask.request (.rename temporary output) with
    | .error fault => pure (.error (.file output fault))
    | .ok _ => pure (.ok ())

/-- Removes an output, which may be missing already. -/
def dropOutput (output : String) : FileTask (Except FileError Unit) := do
  match ← FileTask.request (.remove output) with
  | .error .notFound | .ok _ => pure (.ok ())
  | .error fault => pure (.error (.file output fault))

def codeOfFile (path : String) : FileTask (Except FileError String) := do
  match ← readText path with
  | .error e => pure (.error e)
  | .ok source =>
    match compileText source with
    | .error e => pure (.error (.compile e))
    | .ok code => pure (.ok code)

/-- Compiles a source file to the file beside it, and gives the path of that one. If the source does
not compile, an output of earlier is removed. -/
def buildFile (path : String) : FileTask (Except FileError String) :=
  if isSource path then do
    let output := outputPath path
    match ← codeOfFile path with
    | .error e => do
      let _ ← dropOutput output
      pure (.error e)
    | .ok code =>
      match ← replaceOutput output code with
      | .error e => pure (.error e)
      | .ok _ => pure (.ok output)
  else pure (.error (.notSource path))

def keepFiles : List String → FileTask (List String)
  | [] => pure []
  | path :: paths => do
    let found ← FileTask.request (.isFile path)
    let kept ← keepFiles paths
    pure (if found then path :: kept else kept)

/-- The names among those of a directory's entries that are names of sources, in order. -/
def sourceNames (names : List String) : List String :=
  (names.filter isSource).mergeSort (· ≤ ·)

/-- The source files that a path stands for: the sources directly in a directory, in order, or the
path itself. -/
def sourcesAt (target : String) : FileTask (Except FileError (List String)) := do
  if ← FileTask.request (.isDirectory target) then
    match ← FileTask.request (.list target) with
    | .error fault => pure (.error (.file target fault))
    | .ok names => do
      match ← keepFiles ((sourceNames names).map (childPath target)) with
      | [] => pure (.error (.withoutSources target))
      | sources => pure (.ok sources)
  else if isSource target then pure (.ok [target])
  else pure (.error (.notSource target))

end JackVM
