import JackVM.CharClass

namespace JackVM

inductive Invocation where
  | build (target : String) (jobs : Nat)
  | showTokens (target : String)
  | version
  | invalid
  deriving DecidableEq, Repr

/-- A switch of the command line. The number of jobs may stand in the next argument. -/
inductive Switch where
  | jobs (value? : Option (List Char))
  | showTokens
  | version
  | unknown
  deriving DecidableEq, Repr

/-- The switches that one argument joins after its dash. -/
def shortSwitches : List Char → List Switch
  | [] => []
  | 't' :: cs => .showTokens :: shortSwitches cs
  | 'V' :: cs => .version :: shortSwitches cs
  | ['j'] => [.jobs none]
  | 'j' :: '=' :: value => [.jobs (some value)]
  | 'j' :: value => [.jobs (some value)]
  | _ => [.unknown]

/-- The switch with a long name, which a value may follow after an equals sign. -/
def longSwitch (cs : List Char) : Switch :=
  let name := String.ofList (cs.takeWhile (· != '='))
  match cs.dropWhile (· != '=') with
  | [] =>
    if name = "jobs" then .jobs none
    else if name = "show-tokens" then .showTokens
    else if name = "version" then .version
    else .unknown
  | _ :: value => if name = "jobs" then .jobs (some value) else .unknown

def switches? : List Char → Option (List Switch)
  | '-' :: '-' :: cs => some [longSwitch cs]
  | '-' :: c :: cs => some (shortSwitches (c :: cs))
  | _ => none

/-- The least number of jobs that is too large to be given, which does not fit in 64 bits. -/
def jobLimit : Nat := 18446744073709551616

/-- A number of jobs in decimal digits, which may have a plus sign. -/
def jobCount? (cs : List Char) : Option Nat :=
  let digits := match cs with
    | '+' :: rest => rest
    | _ => cs
  if digits != [] && digits.all isDigit && digitsValue digits < jobLimit then
    some (digitsValue digits)
  else none

structure Given where
  target? : Option String
  jobs? : Option Nat
  showTokens : Bool
  deriving DecidableEq, Repr

namespace Given

/-- The number of jobs, which may be given once. -/
def addJobs (g : Given) (value : List Char) : Option Given :=
  match g.jobs?, jobCount? value with
  | none, some n => some { g with jobs? := some n }
  | _, _ => none

/-- The wish to see tokens, which may be given once. -/
def addShowTokens (g : Given) : Option Given :=
  if g.showTokens then none else some { g with showTokens := true }

/-- The target, which is not empty and may be given once. -/
def addTarget (g : Given) (target : String) : Option Given :=
  match g.target? with
  | none => if target = "" then none else some { g with target? := some target }
  | some _ => none

def invocation (g : Given) : Invocation :=
  match g.target? with
  | none => .invalid
  | some target => if g.showTokens then .showTokens target else .build target (g.jobs?.getD 1)

/-- The arguments after all switches. -/
def addTargets (g : Given) : List String → Invocation
  | [] => g.invocation
  | target :: targets =>
    match g.addTarget target with
    | some g => g.addTargets targets
    | none => .invalid

/-- What the switches of one argument lead to. -/
inductive Effect where
  | go (given : Given)
  /-- The next argument is to give the number of jobs. -/
  | wantJobs (given : Given)
  | stop (invocation : Invocation)

def follow (g : Given) : List Switch → Effect
  | [] => .go g
  | .showTokens :: switches =>
    match g.addShowTokens with
    | some g => g.follow switches
    | none => .stop .invalid
  | .jobs (some value) :: switches =>
    match g.addJobs value with
    | some g => g.follow switches
    | none => .stop .invalid
  | .jobs none :: _ => .wantJobs g
  | .version :: _ => .stop .version
  | .unknown :: _ => .stop .invalid

end Given

/-- Reads arguments from the left after what was given before them. The first fault and the wish for
the version end the reading. -/
def readArguments (g : Given) : List String → Invocation
  | [] => g.invocation
  | "--" :: targets => g.addTargets targets
  | argument :: rest =>
    match switches? argument.toList with
    | none =>
      match g.addTarget argument with
      | some g => readArguments g rest
      | none => .invalid
    | some switches =>
      match g.follow switches with
      | .go g => readArguments g rest
      | .stop invocation => invocation
      | .wantJobs g =>
        match rest with
        | [] => .invalid
        | value :: rest =>
          match g.addJobs value.toList with
          | some g => readArguments g rest
          | none => .invalid

def Invocation.ofArguments (arguments : List String) : Invocation :=
  readArguments ⟨none, none, false⟩ arguments

end JackVM
