import JackVM.Arguments
import JackVM.WorkerPool

namespace JackVM

/-- How a run of the program ends: its exit code and what it prints. -/
structure Report where
  exitCode : Nat
  output : String
  errors : String
  deriving DecidableEq, Repr

def usage : String :=
  "usage: jackc [-j N | --jobs N] [-t | --show-tokens] [-V | --version] TARGET\n"

def versionText : String :=
  "jackc 0.1.0\n"

def failureLines (failures : List (String × FileError)) : String :=
  String.join (failures.map fun (path, e) => s!"{path}: compilation failed: {e.fullMessage}\n")

def padLeft (width n : Nat) : String :=
  let digits := toString n
  String.ofList (List.replicate (width - digits.length) ' ') ++ digits

def tokenLine (t : Token) : String :=
  s!"  {padLeft 4 t.line}  {t.lexeme.describe}\n"

/-- The lines for the tokens up to the first error, and that error. -/
def tokenLines : List (Except TokenError Token) → List String × Option TokenError
  | [] => ([], none)
  | .error e :: _ => ([], some e)
  | .ok t :: results =>
    let (lines, error?) := tokenLines results
    (tokenLine t :: lines, error?)

/-- Shows the tokens of files after what was printed before, up to the first error. -/
def showFiles (printed : String) : List String → FileTask Report
  | [] => pure ⟨0, printed, ""⟩
  | path :: paths => do
    match ← readText path with
    | .error (.file _ fault) => pure ⟨1, printed, s!"reading {path}: {fault.text}\n"⟩
    | .error e => pure ⟨1, printed, s!"reading {path}: {e.fullMessage}\n"⟩
    | .ok source =>
      let (lines, error?) := tokenLines (Cursor.ofText source).results
      let printed := printed ++ s!"{path}:\n" ++ String.join lines
      match error? with
      | some e => pure ⟨1, printed, s!"lexing {path}: {e.message}\n"⟩
      | none => showFiles printed paths

/-- Goes on with the sources of a target, if there are any. -/
def withSources (target : String) (go : List String → FileTask Report) : FileTask Report := do
  match ← sourcesAt target with
  | .error e => pure ⟨1, "", s!"looking for sources in {target}: {e.fullMessage}\n"⟩
  | .ok sources => go sources

/-- Compiles files and reports those that failed. -/
def buildReport (jobs : Nat) (sources : List String) : FileTask Report := do
  let failures ← buildAll sources jobs
  pure ⟨if failures.isEmpty then 0 else 1, "", failureLines failures⟩

/-- Does what the command line asks for. -/
def session : Invocation → FileTask Report
  | .invalid => pure ⟨2, "", usage⟩
  | .version => pure ⟨0, versionText, ""⟩
  | .build target jobs => withSources target (buildReport jobs)
  | .showTokens target => withSources target (showFiles "")

end JackVM
