import JackVM.SourceFiles

namespace JackVM

/-- Compiles files one after the other, and gives those that failed with their errors. -/
def buildEach : List String → FileTask (List (String × FileError))
  | [] => pure []
  | path :: paths => do
    let result ← buildFile path
    let failures ← buildEach paths
    match result with
    | .ok _ => pure failures
    | .error e => pure ((path, e) :: failures)

/-- What a worker is at: between files, in the middle of the file with a number, or at the end. -/
inductive Worker where
  | idle
  | busy (number : Nat) (task : FileTask (Except FileError String))
  | stopped

/-- Workers that share a list of files. A worker takes the first file that none has taken. -/
structure WorkerPool where
  sources : List String
  /-- How many files were taken. -/
  taken : Nat
  workers : List Worker
  /-- The numbers and errors of the files that failed, latest first. -/
  failures : List (Nat × FileError)

namespace WorkerPool

def start (sources : List String) (workers : Nat) : WorkerPool :=
  ⟨sources, 0, List.replicate workers .idle, []⟩

def setWorker (p : WorkerPool) (k : Nat) (w : Worker) : WorkerPool :=
  { p with workers := p.workers.set k w }

def record (p : WorkerPool) (number : Nat) : Except FileError String → WorkerPool
  | .ok _ => p
  | .error e => { p with failures := (number, e) :: p.failures }

/-- One step of one worker, which is to take a file, to make one request of the file system, or to
end a file. -/
def step (p : WorkerPool) (k : Nat) : FileTask WorkerPool :=
  match p.workers[k]? with
  | some .idle =>
    match p.sources[p.taken]? with
    | some path => pure { p.setWorker k (.busy p.taken (buildFile path)) with taken := p.taken + 1 }
    | none => pure (p.setWorker k .stopped)
  | some (.busy number (.done result)) => pure ((p.setWorker k .idle).record number result)
  | some (.busy number (.ask q next)) =>
    .ask q fun answer => .done (p.setWorker k (.busy number (next answer)))
  | _ => pure p

/-- The steps of the workers in the order of a schedule. -/
def follow (p : WorkerPool) : List Nat → FileTask WorkerPool
  | [] => pure p
  | k :: schedule => do
    let p ← p.step k
    p.follow schedule

/-- Ends the files that workers are in the middle of, one after the other. -/
def endTasks (p : WorkerPool) : List Worker → FileTask WorkerPool
  | [] => pure p
  | .busy number task :: workers => do
    let result ← task
    (p.record number result).endTasks workers
  | _ :: workers => p.endTasks workers

def buildFrom (p : WorkerPool) (number : Nat) : List String → FileTask WorkerPool
  | [] => pure p
  | path :: paths => do
    let result ← buildFile path
    (p.record number result).buildFrom (number + 1) paths

def finish (p : WorkerPool) : FileTask WorkerPool := do
  let p ← p.endTasks p.workers
  p.buildFrom p.taken (p.sources.drop p.taken)

/-- The files that failed with their errors, in the order of the files. -/
def failedSources (p : WorkerPool) : List (String × FileError) :=
  (p.failures.mergeSort fun a b => a.1 ≤ b.1).filterMap fun (number, e) =>
    p.sources[number]?.map fun path => (path, e)

end WorkerPool

/-- Each worker in turn, for some rounds. -/
def roundRobin (workers rounds : Nat) : List Nat :=
  (List.replicate rounds (List.range workers)).flatten

/-- Compiles files with workers that take their steps in the order of a schedule. -/
def buildScheduled (sources : List String) (workers : Nat) (schedule : List Nat) :
    FileTask (List (String × FileError)) := do
  let p ← (WorkerPool.start sources workers).follow schedule
  let p ← p.finish
  pure p.failedSources

/-- Compiles files, some at a time, and gives those that failed with their errors. -/
def buildAll (sources : List String) (jobs : Nat) : FileTask (List (String × FileError)) :=
  if jobs ≤ 1 then buildEach sources
  else
    let workers := min jobs sources.length
    buildScheduled sources workers (roundRobin workers (8 * (sources.length / workers + 1)))

end JackVM
