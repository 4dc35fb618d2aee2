import RubyScript.Filter
import RubyScript.Tree.Build

/-!
# The filter for collections

Methods of Ruby collections without a direct equivalent become calls of the library Underscore,
whose name is `_`. Methods that change a collection in place put the result back into it. The
methods listed under `exclude` in the settings of this filter are left alone.
-/

namespace RubyScript.Filter.Collections

def library : Node := .localRead "_"

def isLibrary (n : Node) : Bool :=
  (n.children.getLast?.bind Child.sym?) == some "_"

def isRange (n : Node) : Bool := n.isOneOf [.irange, .erange]

def excluded (options : Options) : List String :=
  match (Json.lookup "underscore" options.filterOptions).bind (·.get? "exclude") with
  | some (.array names) => names.filterMap Json.string?
  | _ => []

/-- The call of a library function in the place of `site`. -/
def libraryCall (site : Node) (method : String) (args : List Node) : Node :=
  site.updated .send (.node library :: .sym method :: args.map .node)

def function (params : Node) (body : Child) : Node :=
  .new .block [.node (.new .send [.nil, .sym "proc"]), .node params, body]

/-- A body whose last value is returned. -/
def returning : Option Node → Child
  | some body => .node (.new .autoreturn [.node body])
  | none => .nil

def first (object : Node) : Node := .invoke object "[]" [.integer 0]

def combining (operator : String) : Node :=
  let params := Node.new .args [.node (.new .arg [.sym "memo"]), .node (.new .arg [.sym "item"])]
  function params (returning (some (.invoke (.localRead "memo") operator [.localRead "item"])))

/-- The name after `:` or `&:`. -/
def operatorName? (n : Node) : Option String := do
  let symbol ← if n.is .blockPass then n.nodeAt? 0 else some n
  if symbol.is .sym then symbol.symAt? 0 else none

/-- Puts values into a collection in the place of its elements. -/
def spliceInto (object values : Node) : Node :=
  .new .call [.node object, .sym "splice", .node (.integer 0),
    .node (.property object "length"), .node (.new .splat [.node values])]

def unaryCall (n object : Node) (method : String) : Option Node :=
  if n.isMethod then some (libraryCall n method [object]) else none

def inPlaceCall (n object : Node) (method : String) (args : List Node) : Option Node :=
  if n.isMethod then some (spliceInto object (libraryCall n method (object :: args))) else none

/-- A call with a symbol for a method as its last argument, which has to be a block argument. -/
def invocation (n object : Node) (args : List Node) : Option Node := do
  let pass ← args.getLast?
  if pass.is .blockPass then
    return libraryCall n "invoke" (object :: (← pass.nodeAt? 0) :: args.dropLast)
  else none

def send (n object : Node) (method : String) (args : List Node) : Option Node :=
  match method, args with
  | "clone", [] => unaryCall n object "clone"
  | "shuffle", [] => unaryCall n object "shuffle"
  | "size", [] => unaryCall n object "size"
  | "compact", [] => unaryCall n object "compact"
  | "flatten", [] => unaryCall n object "flatten"
  | "invert", [] => unaryCall n object "invert"
  | "values", [] => unaryCall n object "values"
  | "uniq", [] => unaryCall n object "uniq"
  | "sample", [] => some (libraryCall n "sample" [object])
  | "sample", [count] => some (libraryCall n "sample" [object, count])
  | "has_key?", [key] => some (libraryCall n "has" [object, key])
  | "sort", [] =>
      if n.isMethod then some (libraryCall n "sortBy" [object, .property library "identity"])
      else none
  | "map", [pass] =>
      if pass.is .blockPass then (pass.nodeAt? 0).map fun key => libraryCall n "pluck" [object, key]
      else none
  | "merge", arg :: rest => some (libraryCall n "extend" (.new .hash [] :: object :: arg :: rest))
  | "merge!", arg :: rest => some (libraryCall n "extend" (object :: arg :: rest))
  | "zip", arg :: rest => some (libraryCall n "zip" (object :: arg :: rest))
  | "invoke", args => invocation n object args
  | "where", args => some (libraryCall n "where" (object :: args))
  | "find_by", args => some (libraryCall n "findWhere" (object :: args))
  | "reduce", [operator] => (operatorName? operator).map fun operator =>
      libraryCall n "reduce" [libraryCall n "rest" [object], combining operator, first object]
  | "reduce", [initial, operator] => (operatorName? operator).map fun operator =>
      libraryCall n "reduce" [object, combining operator, initial]
  | "compact!", args => inPlaceCall n object "compact" args
  | "flatten!", args => inPlaceCall n object "flatten" args
  | "shuffle!", args => inPlaceCall n object "shuffle" args
  | "uniq!", args => inPlaceCall n object "uniq" args
  | _, _ => none

/-- The parts of a block: its call, what the call is made of, the parameters and the body. -/
structure BlockParts where
  call : Node
  object : Node
  args : List Node
  params : Node
  body : Option Node

namespace BlockParts

/-- A library function that gets the block as its last argument. -/
def passing (parts : BlockParts) (method : String) (body : Child) : Node :=
  .new .block [.node (libraryCall parts.call method [parts.object]), .node parts.params, body]

def selecting (parts : BlockParts) (method : String) : Node :=
  parts.passing method (returning parts.body)

def reducing (parts : BlockParts) (collection initial : Node) : Node :=
  .new .call [.node library, .sym "reduce", .node collection,
    .node (function parts.params (returning parts.body)), .node initial]

/-- A method with a block that changes its receiver in place. -/
def inPlace (parts : BlockParts) (method : String) : Node :=
  let values := Node.new .block [.node (.invoke parts.object method parts.args),
    .node parts.params, .ofNode? parts.body]
  let start := Node.new .array [.node (.integer 0), .node (.property parts.object "length")]
  .new .call [.node parts.object, .sym "splice",
    .node (.new .splat [.node (.invoke start "concat" [values])])]

end BlockParts

def block (parts : BlockParts) (method : String) : Option Node :=
  match method, parts.args with
  | "sort_by", _ => some (parts.selecting "sortBy")
  | "group_by", _ => some (parts.selecting "groupBy")
  | "index_by", _ => some (parts.selecting "indexBy")
  | "count_by", _ => some (parts.selecting "countBy")
  | "find", [] => some (parts.selecting "find")
  | "reject", [] => some (parts.selecting "reject")
  | "times", [] => some (parts.passing "times" (.ofNode? parts.body))
  | "reduce", [] =>
      some (parts.reducing (libraryCall parts.call "rest" [parts.object]) (first parts.object))
  | "reduce", [initial] => some (parts.reducing parts.object initial)
  | "map!", _ => some (parts.inPlace "map")
  | "reject!", _ => some (parts.inPlace "reject")
  | "select!", _ => some (parts.inPlace "select")
  | "sort_by!", _ => some (parts.inPlace "sort_by")
  | _, _ => none

/-- The end of a range that includes its last element, as the end of one that does not. -/
def rangeEnd (high : Node) : Node :=
  match high.intAt? 0 with
  | some value =>
      if high.is .int && value < Int64.maxValue then .integer (value + 1)
      else .invoke high "+" [.integer 1]
  | none => .invoke high "+" [.integer 1]

def range (n : Node) : Option Node := do
  let low ← n.nodeAt? 0
  let high ← n.nodeAt? 1
  if n.is .erange then return libraryCall n "range" [low, high]
  return n.updated .call [.node library, .sym "range", .node low, .node (rangeEnd high)]

/-- The receiver, the method and the arguments of a call that the filter may replace. -/
def target? (exclude : List String) (call : Node) : Option (Node × String × List Node) := do
  let object ← call.nodeAt? 0
  if isLibrary object then none
  else
    let method ← call.symAt? 1
    if exclude.contains method then none
    else return (object, method, ← call.callArgs?)

def replacement? (exclude : List String) (n : Node) : Option Node :=
  match n.kind with
  | .send => do
      let (object, method, args) ← target? exclude n
      send n object method args
  | .block => do
      let call ← n.nodeAt? 0
      if call.is .send then
        let (object, method, args) ← target? exclude call
        let params ← n.nodeAt? 1
        block { call, object, args, params, body := n.nodeAt? 2 } method
      else none
  | .irange | .erange => range n
  | _ => none

/-- Whether a node is a loop over a range, which stays one. -/
def isRangeLoop (n : Node) : Bool := n.is .forLoop && (n.nodeAt? 1).any isRange

def processChild (cx : Context) : Child → FilterM Child
  | .node n => Child.node <$> cx.process n
  | other => return other

/-- The children of a loop over a range: of the range itself only the bounds are processed. -/
def processLoop (cx : Context) : List Child → FilterM (List Child)
  | counter :: .node bounds :: rest => do
      let counter ← processChild cx counter
      let bounds ← bounds.mapNodesM cx.process
      return counter :: .node bounds :: (← rest.mapM (processChild cx))
  | children => children.mapM (processChild cx)

def apply (cx : Context) (rest : Node → FilterM Node) (n : Node) : FilterM Node := do
  if isRangeLoop n then return n.withChildren (← processLoop cx n.children)
  match replacement? (excluded cx.options) n with
  | some replacement => cx.process replacement
  | none => rest n

end RubyScript.Filter.Collections

namespace RubyScript.Filter

def collections : Filter where
  name := "underscore"
  apply := Collections.apply

end RubyScript.Filter
