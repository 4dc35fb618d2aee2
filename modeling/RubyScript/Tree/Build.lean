import RubyScript.Tree.Node

/-!
# Building and taking apart calls

Small constructors for nodes without a location, and views of the shapes that filters look for.
-/

namespace RubyScript.Node

def invoke (object : Node) (method : String) (args : List Node) : Node :=
  .new .send (.node object :: .sym method :: args.map .node)

def global (name : String) : Node := .new .attr [.nil, .sym name]

def property (object : Node) (name : String) : Node := .new .attr [.node object, .sym name]

def localRead (name : String) : Node := .new .lvar [.sym name]

def string (s : String) : Node := .new .str [.str s]

def integer (i : Int64) : Node := .new .int [.int i]

def sequence (statements : List Node) : Node := .new .begin (statements.map .node)

def entry (key value : String) : Node :=
  .new .hash [.node (.new .pair [.node (.new .sym [.sym key]), .node (string value)])]

/-- The arguments of a call: its children after the receiver and the method. -/
def callArgs? (n : Node) : Option (List Node) :=
  if n.size < 2 then none else (n.children.drop 2).mapM Child.node?

def topConstant? (n : Node) : Option String :=
  if n.is .constant && n.isNilAt 0 then n.symAt? 1 else none

/-- The elements of an array literal, or the value itself. -/
def elements (n : Node) : List Node := if n.is .array then n.childNodes else [n]

end RubyScript.Node
