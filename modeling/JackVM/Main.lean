import JackVM.Session

namespace JackVM

/-- Whether a code of the system, which some calls give negated, is this one. -/
def hasCode (given code : UInt32) : Bool :=
  given == code || given + code == 0

/-- The fault that the system reports. -/
def faultOf : IO.Error → FileFault
  | .noFileOrDirectory .. => .notFound
  | .inappropriateType _ code details =>
    if hasCode code 21 then .isADirectory
    else if hasCode code 20 then .notADirectory
    else .other details
  | .resourceBusy .. => .busy
  | e => .other (toString e)

def attempt {α : Type} (action : IO α) : IO (Except FileFault α) := do
  match ← action.toBaseIO with
  | .ok a => pure (.ok a)
  | .error e => pure (.error (faultOf e))

def perform : (q : FileRequest) → IO q.Answer
  | .read path => attempt (IO.FS.readBinFile path)
  | .write path content => attempt (IO.FS.writeBinFile path content)
  | .rename source target => attempt (IO.FS.rename source target)
  | .remove path => attempt (IO.FS.removeFile path)
  | .isDirectory path => do
    ((← IO.currentDir) / path).isDir
  | .isFile path => do
    match ← attempt ((← IO.currentDir) / path).metadata with
    | .ok found => pure (found.type == .file)
    | .error _ => pure false
  | .list path => do
    match ← attempt ((← IO.currentDir) / path).readDir with
    | .ok entries => pure (.ok (entries.toList.map fun e => e.fileName))
    | .error fault => pure (.error fault)

def FileTask.perform {α : Type} : FileTask α → IO α
  | .done a => pure a
  | .ask q next => do
    let answer ← JackVM.perform q
    (next answer).perform

end JackVM

def main (arguments : List String) : IO UInt32 := do
  let report ← (JackVM.session (.ofArguments arguments)).perform
  IO.print report.output
  IO.eprint report.errors
  pure report.exitCode.toUInt32
