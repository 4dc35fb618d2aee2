import RubyScript.Emit.Branch

/-!
# Exceptions

Exception handling is a `try` statement. Handlers for given classes become one `catch` clause
that tests the caught value against the classes of each handler in turn.
-/

namespace RubyScript.Emit

def exceptionName : String := "$EXCEPTION"

/-- A handler: the classes that it is for, all if there are none, the variable for the caught
value, and the body. -/
structure Handler where
  classes : List Node
  binding : Option String
  body : Option Node

def handlerOf (n : Node) : Emit Handler := do
  let shape := "(resbody classes variable body)"
  let classes := match ← optionalChild n 0 shape with
    | some list => if list.is .array then list.childNodes else [list]
    | none => []
  let binding ← match ← optionalChild n 1 shape with
    | some target => some <$> symChild target 0 "(lvasgn name)"
    | none => pure none
  return { classes, binding, body := ← optionalChild n 2 shape }

def instanceTest (emit : Emitter) (classes : List Node) : Emit String := do
  let tests ← classes.mapM fun c =>
    return exceptionName ++ " instanceof " ++ (← operand emit c (Precedence.relational + 1))
  return Text.joined " || " tests

/-- The body of one of several handlers, which gives the caught value its name. -/
def handlerBody (emit : Emitter) (n : Node) (handler : Handler) : Emit String := do
  let keyword := (← level).localKeyword
  let prologue := handler.binding.toList.map fun name =>
    keyword ++ " " ++ name ++ " = " ++ exceptionName
  boundBlock emit handler.body n handler.binding.toList prologue

/-- The handlers as one conditional. A handler for all classes is its last branch; without one,
the caught value is thrown again. -/
def handlerChain (emit : Emitter) (n : Node) : List Handler → Emit String
  | [] => return braced ("throw " ++ exceptionName)
  | handler :: rest => do
      if handler.classes.isEmpty then handlerBody emit n handler
      else
        let test ← instanceTest emit handler.classes
        let body ← handlerBody emit n handler
        return "if (" ++ test ++ ") " ++ body ++ " else " ++ (← handlerChain emit n rest)

def catchClause (emit : Emitter) (n : Node) (handlers : List Node) : Emit String := do
  match ← handlers.mapM handlerOf with
  | [⟨[], binding, body⟩] => do
      let name := binding.getD exceptionName
      return " catch (" ++ name ++ ") " ++ (← boundBlock emit body n [name] [])
  | handlers =>
      return " catch (" ++ exceptionName ++ ") " ++ braced (← handlerChain emit n handlers)

def rescueParts (n : Node) : Emit (Option Node × List Node) := do
  let shape := "(rescue body resbody... else)"
  if n.size < 2 then malformed shape n
  match ← optionalChild n (n.size - 1) shape with
  | some alternative => unsupported "else clause of a rescue" alternative
  | none => do
      let handlers ← (n.children.drop 1).dropLast.mapM fun
        | .node handler => if handler.is .resbody then pure handler else malformed shape n
        | _ => malformed shape n
      return (← optionalChild n 0 shape, handlers)

def tryStatement (emit : Emitter) (n : Node) : Emit String := do
  unless ← isStatement do unsupported "exception handling in expression position" n
  let (main, finally?) ←
    if n.is .ensure then do
      let main ← optionalChild n 0 "(ensure body ensure)"
      pure (main, some (← optionalChild n 1 "(ensure body ensure)"))
    else pure (some n, none)
  let (body, handlers) ← match main with
    | some inner => if inner.is .rescue then rescueParts inner else pure (some inner, [])
    | none => pure (none, [])
  let bodyText ← blockBody emit body n
  let catchText ← if handlers.isEmpty then pure "" else catchClause emit n handlers
  let finallyText ← match finally? with
    | some last => do pure (" finally " ++ (← blockBody emit last n))
    | none => pure ""
  return "try " ++ bodyText ++ catchText ++ finallyText

end RubyScript.Emit
