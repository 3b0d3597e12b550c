namespace JackVM

/-- A path's characters in reverse without the slashes at its end, and without parts at its end that
are a single dot. -/
def dropTrailing : List Char → List Char
  | '/' :: cs => dropTrailing cs
  | '.' :: '/' :: cs => dropTrailing cs
  | cs => cs

/-- The text of a path up to its last part, and that part. -/
def splitLast (path : List Char) : List Char × List Char :=
  let back := dropTrailing path.reverse
  ((back.dropWhile (· != '/')).reverse, (back.takeWhile (· != '/')).reverse)

/-- Whether the last part of a path names a file, which a dot or two dots do not. -/
def isFileName (part : List Char) : Bool :=
  part != [] && part != ['.'] && part != ['.', '.']

/-- The parts of a name before and after its last dot. A name has no second part if it has no dot or
starts with its only one. -/
def splitName (name : List Char) : List Char × Option (List Char) :=
  let back := name.reverse
  match back.dropWhile (· != '.') with
  | _ :: c :: stem => ((c :: stem).reverse, some (back.takeWhile (· != '.')).reverse)
  | _ => (name, none)

def extension? (path : List Char) : Option (List Char) :=
  let (_, name) := splitLast path
  if isFileName name then (splitName name).2 else none

/-- A path with another extension for its file. A path that names no file stays as it is. -/
def replaceExtension (path extension : List Char) : List Char :=
  let (directory, name) := splitLast path
  if isFileName name then directory ++ (splitName name).1 ++ '.' :: extension else path

/-- A path with another extension, where as many characters as the old one has are first taken off
the end of the whole text. -/
def withExtension (path extension : List Char) : List Char :=
  match extension? path with
  | some old => replaceExtension (path.take (path.length - old.length)) extension
  | none => replaceExtension path extension

def sourceExtension : String := "jack"

def codeExtension : String := "vm"

def isSource (path : String) : Bool :=
  extension? path.toList == some sourceExtension.toList

def outputPath (path : String) : String :=
  String.ofList (withExtension path.toList codeExtension.toList)

/-- The path of the file that is written before it takes the place of the output. -/
def temporaryPath (output : String) : String :=
  String.ofList (withExtension output.toList (codeExtension ++ ".tmp").toList)

def childPath (directory name : String) : String :=
  if directory.toList.getLast? = some '/' then directory ++ name else directory ++ "/" ++ name

end JackVM
