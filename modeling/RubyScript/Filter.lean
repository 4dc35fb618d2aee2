import RubyScript.ConvertError
import RubyScript.Options

/-!
# Filters

A filter is one pass over the tree. Filters form a stack. A node is offered to the first
filter, which either changes it or hands it to the rest of the stack; behind the last filter
the child nodes are processed, again from the top of the stack. A filter that builds a new
node may process it again itself.

A filter can register *setup tokens*: names of declarations that the changed program needs
once, at its top.
-/

namespace RubyScript

/-- The state of a filter pass is the list of registered tokens, latest first. -/
abbrev FilterM := ExceptT ConvertError (StateM (List String))

namespace FilterM

def require (token : String) : FilterM Unit :=
  modify fun tokens => if tokens.contains token then tokens else token :: tokens

def requires (token : String) : FilterM Bool :=
  return (← get).contains token

end FilterM

namespace Filter

structure Context where
  options : Options
  /-- Sends a node through the whole stack. -/
  process : Node → FilterM Node

def Context.processAll (cx : Context) (nodes : List Node) : FilterM (List Node) :=
  nodes.mapM cx.process

end Filter

structure Filter where
  name : String
  /-- Changes a node, or hands it to the rest of the stack. -/
  apply : Filter.Context → (rest : Node → FilterM Node) → Node → FilterM Node :=
    fun _ rest => rest
  /-- The tokens that this filter declares, in the order of their declarations. -/
  setupTokens : List String := []
  setupDeclaration : String → Option Node := fun _ => none

namespace Filter

def maxDepth : Nat := 500

def dispatch (cx : Context) : List Filter → Node → FilterM Node
  | [], n => n.mapNodesM cx.process
  | filter :: stack, n => filter.apply cx (dispatch cx stack) n

/-- Sends a node through a stack, with at most `depth` calls inside each other. -/
def process (stack : List Filter) (options : Options) : Nat → Node → FilterM Node
  | 0, n => throw (.tooDeep n)
  | depth + 1, n => dispatch ⟨options, process stack options depth⟩ stack n

/-! ## Setup declarations -/

/-- The first declaration of each required token, in the order of the stack and of each
filter's own list. `seen` holds the tokens that are already declared. -/
def declarationsOf (filter : Filter) (tokens : List String) :
    List String → List String → Except ConvertError (List Node × List String)
  | [], seen => .ok ([], seen)
  | token :: rest, seen =>
      if tokens.contains token && !seen.contains token then
        match filter.setupDeclaration token with
        | none => .error (.unresolvedSetup token)
        | some declaration => do
            let (declarations, seen) ← declarationsOf filter tokens rest (token :: seen)
            return (declaration :: declarations, seen)
      else declarationsOf filter tokens rest seen

def declarations (tokens : List String) :
    List Filter → List String → Except ConvertError (List Node × List String)
  | [], seen => .ok ([], seen)
  | filter :: stack, seen => do
      let (first, seen) ← declarationsOf filter tokens filter.setupTokens seen
      let (others, seen) ← declarations tokens stack seen
      return (first ++ others, seen)

/-- The least text of a list, by code points. -/
def least? : List String → Option String
  | [] => none
  | s :: rest =>
      match least? rest with
      | none => some s
      | some t => some (if t < s then t else s)

/-- The statements of a program: the children of a sequence, or the node itself. -/
def statements (program : Node) : List Child :=
  if program.is .begin then program.children else [.node program]

/-- Puts the declarations of all required tokens before the program, except for those that
already are statements of it. -/
def materialize (stack : List Filter) (tokens : List String) (program : Node) :
    Except ConvertError Node := do
  let (declarations, seen) ← declarations tokens stack []
  match least? (tokens.filter (!seen.contains ·)) with
  | some token => throw (.unresolvedSetup token)
  | none =>
      let existing := (statements program).filterMap Child.node?
      let missing := declarations.filter fun d => !existing.any (Node.same · d)
      if missing.isEmpty then return program
      else return .new .begin (missing.map .node ++ statements program)

/-- The tree that a stack of filters makes of a tree. -/
def normalize (stack : List Filter) (options : Options) (tree : Node) :
    Except ConvertError Node :=
  match (process stack options maxDepth tree).run.run [] with
  | (.ok program, tokens) => materialize stack tokens program
  | (.error e, _) => .error e

end Filter

end RubyScript
