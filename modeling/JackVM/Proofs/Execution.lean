import JackVM.Proofs.Machine
import JackVM.Proofs.TreeCode

namespace JackVM

/-- What the code of a value does when it is run on its own. -/
def Evaluates (lib : Library) (code : List Instruction) (σ : Store) (v : Word) (σ' : Store) :
    Prop :=
  ∀ that temp, ∃ that' temp', run lib code ⟨σ, [], that, temp⟩ = some ⟨σ', [v], that', temp'⟩

/-- The statements that neither choose what comes next nor give back. -/
inductive Effect (lib : Library) (ρ : Scope) : Statement → Store → Store → Prop
  | assign {x : String} {y : Variable} {e : Expression} {σ σ' : Store} {v : Word} :
    ρ.find? x = some y → Evaluates lib (e.code ρ) σ v σ' →
    Effect lib ρ (.assign x e) σ (σ'.set y v)
  | assignElement {x : String} {y : Variable} {i e : Expression} {σ σ' σ'' : Store} {k v : Word} :
    ρ.find? x = some y → Evaluates lib (i.code ρ) σ k σ' → Evaluates lib (e.code ρ) σ' v σ'' →
    Effect lib ρ (.assignElement x i e) σ (σ''.setHeap (σ.valueOf y + k) v)
  | perform {q : Option String} {f : String} {es : List Expression} {σ σ' : Store} {v : Word} :
    Evaluates lib (callCode ρ q f es) σ v σ' → Effect lib ρ (.perform q f es) σ σ'

/-- How statements end: at their end, or earlier with a value to give back. -/
inductive Outcome where
  | done (store : Store)
  | returned (value : Word) (store : Store)

/-- The block of a branch that a condition leads to. Only -1 is true. -/
def chosen (v : Word) (yes : List Statement) (no : Option (List Statement)) : List Statement :=
  if v = -1 then yes else no.getD []

/-- What statements do, without jumps. -/
inductive Executes (lib : Library) (ρ : Scope) : List Statement → Store → Outcome → Prop
  | nil (σ : Store) : Executes lib ρ [] σ (.done σ)
  | effect {st : Statement} {ss : List Statement} {σ σ' : Store} {o : Outcome} :
    Effect lib ρ st σ σ' → Executes lib ρ ss σ' o → Executes lib ρ (st :: ss) σ o
  | branch {c : Expression} {yes ss : List Statement} {no : Option (List Statement)}
      {σ σ' σ'' : Store} {v : Word} {o : Outcome} :
    Evaluates lib (c.code ρ) σ v σ' → Executes lib ρ (chosen v yes no) σ' (.done σ'') →
    Executes lib ρ ss σ'' o → Executes lib ρ (.branch c yes no :: ss) σ o
  | branchReturn {c : Expression} {yes ss : List Statement} {no : Option (List Statement)}
      {σ σ' σ'' : Store} {v w : Word} :
    Evaluates lib (c.code ρ) σ v σ' → Executes lib ρ (chosen v yes no) σ' (.returned w σ'') →
    Executes lib ρ (.branch c yes no :: ss) σ (.returned w σ'')
  | loopEnd {c : Expression} {body ss : List Statement} {σ σ' : Store} {v : Word} {o : Outcome} :
    Evaluates lib (c.code ρ) σ v σ' → v ≠ -1 → Executes lib ρ ss σ' o →
    Executes lib ρ (.loop c body :: ss) σ o
  | loopAgain {c : Expression} {body ss : List Statement} {σ σ' σ'' : Store} {o : Outcome} :
    Evaluates lib (c.code ρ) σ (-1) σ' → Executes lib ρ body σ' (.done σ'') →
    Executes lib ρ (.loop c body :: ss) σ'' o → Executes lib ρ (.loop c body :: ss) σ o
  | loopReturn {c : Expression} {body ss : List Statement} {σ σ' σ'' : Store} {w : Word} :
    Evaluates lib (c.code ρ) σ (-1) σ' → Executes lib ρ body σ' (.returned w σ'') →
    Executes lib ρ (.loop c body :: ss) σ (.returned w σ'')
  | giveBackNothing {ss : List Statement} {σ : Store} :
    Executes lib ρ (.giveBack none :: ss) σ (.returned 0 σ)
  | giveBack {e : Expression} {ss : List Statement} {σ σ' : Store} {v : Word} :
    Evaluates lib (e.code ρ) σ v σ' →
    Executes lib ρ (.giveBack (some e) :: ss) σ (.returned v σ')

mutual

/-- The blocks inside a statement, each with the number that its labels start from. -/
def Statement.blocks : Statement → Nat → List (List Statement × Nat)
  | .branch _ yes none, n => blocksOf yes (n + 1)
  | .branch _ yes (some no), n => blocksOf yes (n + 1) ++ blocksOf no (n + 1 + labelCount yes + 1)
  | .loop _ body, n => blocksOf body (n + 2)
  | _, _ => []

/-- All the lists of statements in a list, among which are what is left of it at each of its
statements. -/
def blocksOf : List Statement → Nat → List (List Statement × Nat)
  | [], n => [([], n)]
  | st :: ss, n => (st :: ss, n) :: (st.blocks n ++ blocksOf ss (n + st.labels))

end

end JackVM
