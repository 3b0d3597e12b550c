import JackVM.FileTree

namespace JackVM

inductive FileRequest where
  | read (path : String)
  | write (path : String) (content : ByteArray)
  | rename (source target : String)
  | remove (path : String)
  | isDirectory (path : String)
  | isFile (path : String)
  | list (path : String)

abbrev FileRequest.Answer : FileRequest → Type
  | read _ => Except FileFault ByteArray
  | write _ _ | rename _ _ | remove _ => Except FileFault Unit
  | isDirectory _ | isFile _ => Bool
  | list _ => Except FileFault (List String)

/-- The tree after a change, and as it was if the change failed. -/
def FileTree.changed (t : FileTree) : Except FileFault FileTree → Except FileFault Unit × FileTree
  | .ok after => (.ok (), after)
  | .error fault => (.error fault, t)

/-- How a tree answers a request, and the tree afterwards. -/
def FileTree.answer (t : FileTree) : (q : FileRequest) → q.Answer × FileTree
  | .read path => (t.read path, t)
  | .write path content => t.changed (t.write path content)
  | .rename source target => t.changed (t.rename source target)
  | .remove path => t.changed (t.remove path)
  | .isDirectory path => (t.isDirectory path, t)
  | .isFile path => (t.isFile path, t)
  | .list path => (t.list path, t)

/-- Work on files: its result, or a request and how to go on with each answer. -/
inductive FileTask (α : Type) where
  | done (result : α)
  | ask (request : FileRequest) (next : request.Answer → FileTask α)

namespace FileTask

variable {α β : Type}

def bind : FileTask α → (α → FileTask β) → FileTask β
  | done a, f => f a
  | ask q next, f => ask q fun answer => (next answer).bind f

instance : Monad FileTask where
  pure := done
  bind := bind

def request (q : FileRequest) : FileTask q.Answer :=
  ask q done

/-- The result of a task on a tree, and the tree afterwards. -/
def run : FileTask α → FileTree → α × FileTree
  | done a, t => (a, t)
  | ask q next, t =>
    let (answer, after) := t.answer q
    (next answer).run after

theorem run_bind (x : FileTask α) (f : α → FileTask β) (t : FileTree) :
    (x.bind f).run t = (f (x.run t).1).run (x.run t).2 := by
  induction x generalizing t with
  | done a => rfl
  | ask q next ih => exact ih (t.answer q).1 (t.answer q).2

end FileTask

end JackVM
