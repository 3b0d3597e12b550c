namespace JackVM

/-- Why the file system did not do what it was asked. -/
inductive FileFault where
  | notFound
  | isADirectory
  | notADirectory
  | invalidText
  | busy
  | other (text : String)
  deriving DecidableEq, Repr

def FileFault.text : FileFault → String
  | notFound => "No such file or directory (os error 2)"
  | isADirectory => "Is a directory (os error 21)"
  | notADirectory => "Not a directory (os error 20)"
  | invalidText => "stream did not contain valid UTF-8"
  | busy => "Device or resource busy (os error 16)"
  | other text => text

/-- A regular file with its content, or a directory. -/
inductive FileNode where
  | file (content : ByteArray)
  | directory

/-- The names on the way from the root to an entry. -/
abbrev Place := List String

/-- Files and directories, of which one directory is the one that paths start from. -/
structure FileTree where
  entries : List (Place × FileNode)
  workDirectory : Place

/-- The parts of a path between slashes. -/
def pathParts : List Char → List (List Char)
  | [] => [[]]
  | c :: cs =>
    if c = '/' then [] :: pathParts cs
    else
      match pathParts cs with
      | [] => [[c]]
      | part :: parts => (c :: part) :: parts

/-- What a path leads to: a directory known by its place, or an entry of a directory, which may be
missing. A slash at the end asks for the entry to be a directory. -/
inductive Spot where
  | directory (place : Place)
  | entry (parent : Place) (name : String) (slash : Bool)
  deriving DecidableEq, Repr

namespace FileTree

def empty : FileTree :=
  ⟨[(["work"], .directory)], ["work"]⟩

def node? (t : FileTree) (p : Place) : Option FileNode :=
  if p = [] then some .directory else t.entries.lookup p

def erase (t : FileTree) (p : Place) : FileTree :=
  { t with entries := t.entries.filter fun e => e.1 != p }

def set (t : FileTree) (p : Place) (node : FileNode) : FileTree :=
  { t with entries := (p, node) :: (t.erase p).entries }

theorem lookup_filter_ne (entries : List (Place × FileNode)) (p q : Place) :
    (entries.filter fun e => e.1 != p).lookup q = if q = p then none else entries.lookup q := by
  induction entries with
  | nil => simp
  | cons e entries ih =>
    obtain ⟨r, node⟩ := e
    rw [List.filter_cons, List.lookup_cons]
    by_cases hr : r = p
    · simp only [hr, bne_self_eq_false, Bool.false_eq_true, ↓reduceIte, ih]
      grind
    · have hn : (r != p) = true := by simp [hr]
      simp only [hn, ↓reduceIte, List.lookup_cons, ih]
      grind

theorem node?_erase (t : FileTree) (p q : Place) :
    (t.erase p).node? q = if q = p ∧ q ≠ [] then none else t.node? q := by
  unfold node? erase
  rw [lookup_filter_ne]
  grind

theorem node?_set (t : FileTree) (p q : Place) (node : FileNode) (hp : p ≠ []) :
    (t.set p node).node? q = if q = p then some node else t.node? q := by
  unfold node? set erase
  rw [List.lookup_cons, lookup_filter_ne]
  grind

def childNames (t : FileTree) (p : Place) : List String :=
  t.entries.filterMap fun e => if e.1.dropLast = p then e.1.getLast? else none

/-- The place reached from another through parts of a path that are all directories. -/
def walk (t : FileTree) : Place → List String → Except FileFault Place
  | here, [] => .ok here
  | here, part :: parts =>
    if part = "." then t.walk here parts
    else if part = ".." then t.walk here.dropLast parts
    else
      match t.node? (here ++ [part]) with
      | some .directory => t.walk (here ++ [part]) parts
      | some (.file _) => .error .notADirectory
      | none => .error .notFound

def locate (t : FileTree) (path : String) : Except FileFault Spot :=
  let start := if path.toList.head? = some '/' then [] else t.workDirectory
  let parts := ((pathParts path.toList).filter (· != [])).map String.ofList
  match parts.getLast? with
  | none => if path = "" then .error .notFound else .ok (.directory start)
  | some name => do
    let parent ← t.walk start parts.dropLast
    if name = "." then pure (.directory parent)
    else if name = ".." then pure (.directory parent.dropLast)
    else pure (.entry parent name (path.toList.getLast? = some '/'))

def stat (t : FileTree) (path : String) : Except FileFault FileNode := do
  match ← t.locate path with
  | .directory _ => pure .directory
  | .entry parent name slash =>
    match t.node? (parent ++ [name]) with
    | none => throw .notFound
    | some .directory => pure .directory
    | some (.file content) => if slash then throw .notADirectory else pure (.file content)

def isDirectory (t : FileTree) (path : String) : Bool :=
  match t.stat path with
  | .ok .directory => true
  | _ => false

def isFile (t : FileTree) (path : String) : Bool :=
  match t.stat path with
  | .ok (.file _) => true
  | _ => false

def read (t : FileTree) (path : String) : Except FileFault ByteArray := do
  match ← t.stat path with
  | .directory => throw .isADirectory
  | .file content => pure content

def list (t : FileTree) (path : String) : Except FileFault (List String) := do
  match ← t.locate path with
  | .directory place => pure (t.childNames place)
  | .entry parent name _ =>
    match t.node? (parent ++ [name]) with
    | none => throw .notFound
    | some (.file _) => throw .notADirectory
    | some .directory => pure (t.childNames (parent ++ [name]))

/-- Writes a file, which may be new but whose directory must be there. -/
def write (t : FileTree) (path : String) (content : ByteArray) : Except FileFault FileTree := do
  match ← t.locate path with
  | .directory _ => throw .isADirectory
  | .entry parent name slash =>
    if slash then throw .isADirectory
    match t.node? (parent ++ [name]) with
    | some .directory => throw .isADirectory
    | _ => pure (t.set (parent ++ [name]) (.file content))

def remove (t : FileTree) (path : String) : Except FileFault FileTree := do
  match ← t.locate path with
  | .directory _ => throw .isADirectory
  | .entry parent name slash =>
    match t.node? (parent ++ [name]) with
    | none => throw .notFound
    | some .directory => throw .isADirectory
    | some (.file _) =>
      if slash then throw .notADirectory else pure (t.erase (parent ++ [name]))

/-- Moves a file to another path, where it takes the place of a file that is there. -/
def rename (t : FileTree) (source target : String) : Except FileFault FileTree := do
  let old ← t.locate source
  let new ← t.locate target
  match old, new with
  | .entry oldParent oldName oldSlash, .entry newParent newName newSlash =>
    match t.node? (oldParent ++ [oldName]) with
    | none => throw .notFound
    | some .directory => throw .isADirectory
    | some (.file content) =>
      if oldSlash || newSlash then throw .notADirectory
      match t.node? (newParent ++ [newName]) with
      | some .directory => throw .isADirectory
      | _ => pure ((t.erase (oldParent ++ [oldName])).set (newParent ++ [newName]) (.file content))
  | _, _ => throw .busy

/-- The tree with directories on the way to a place and at it, where nothing was before. -/
def makeDirectories (t : FileTree) (p : Place) : FileTree :=
  (List.range (p.length + 1)).foldl (fun t n =>
    if (t.node? (p.take n)).isNone then t.set (p.take n) .directory else t) t

/-- The place that a path leads to from the start of paths, dots apart. -/
def placeOf (t : FileTree) (path : String) : Place :=
  t.workDirectory ++
    (((pathParts path.toList).filter fun part => part != [] && part != ['.']).map String.ofList)

/-- The entries below the start of paths, each with its path from there. -/
def below (t : FileTree) : List (String × FileNode) :=
  t.entries.filterMap fun e =>
    if t.workDirectory.isPrefixOf e.1 && e.1 != t.workDirectory then
      some ("/".intercalate (e.1.drop t.workDirectory.length), e.2)
    else none

end FileTree

end JackVM
