import RubyScript.Filter
import RubyScript.Tree.Build

/-!
# The filter for the host environment

Ruby's calls for processes, files and directories become calls of the modules of Node.js. The
modules, and the command line arguments, are declared at the top of the program if something
uses them.
-/

namespace RubyScript.Filter.Host

/-- What the filter does with a node: it may replace it and may ask for a declaration. -/
structure Change where
  replacement : Option Node := none
  token : Option String := none

def childProcessToken : String := "child_process"

def fileToken : String := "fs"

def argumentsToken : String := "ARGV"

def plain (n : Node) : Change := { replacement := some n }

def stream (name : String) : Node := .property (.global "process") name

def processCall (method : String) (args : List Node) : Node :=
  .invoke (.global "process") method args

def fileCall (method : String) (args : List Node) : Node :=
  .invoke (.global "fs") method args

def usingFiles (n : Node) : Change := { replacement := some n, token := some fileToken }

def childProcess (method : String) (args : List Node) : Change :=
  { replacement := some (.invoke (.global "child_process") method args)
    token := some childProcessToken }

def octal (mode : Node) : Node := .new .octal mode.children

/-- One call for each file, which is the first argument. -/
def forEach (method : String) (files extra : List Node) : Node :=
  .sequence (files.map fun file => fileCall method (file :: extra))

/-- Whether a node names a library whose calls this filter replaces. -/
def isImplicitLibrary (n : Node) : Bool :=
  n.is .str && (n.strAt? 0 == some "fileutils" || n.strAt? 0 == some "tmpdir")

def kernel (method : String) (args : List Node) : Change :=
  match method, args with
  | "__dir__", [] => plain (.global "__dirname")
  | "exit", [] => plain (processCall "exit" [])
  | "exit", [code] => plain (processCall "exit" [code])
  | "system", [command] => childProcess "execSync" [command, .entry "stdio" "inherit"]
  | "system", command :: rest =>
      childProcess "execFileSync"
        [command, .new .array (rest.map .node), .entry "stdio" "inherit"]
  | "require", [library] => if isImplicitLibrary library then plain (.sequence []) else {}
  | _, _ => {}

def contents (method : String) (args : List Node) : Change :=
  match method, args with
  | "read", [path] => usingFiles (fileCall "readFileSync" [path, .string "utf8"])
  | "write", [path, text] => usingFiles (fileCall "writeFileSync" [path, text])
  | _, _ => {}

/-- Changes of the mode of files, which has to be a literal. -/
def changeMode (method : String) (mode : Node) (files : List Node) : Change :=
  if !files.isEmpty && mode.is .int then usingFiles (forEach method files [octal mode]) else {}

/-- Changes of the owner of files, which has to be given by literals. -/
def changeOwner (method : String) (user group : Node) (files : List Node) : Change :=
  if !files.isEmpty && user.is .int && group.is .int then
    usingFiles (forEach method files [user, group])
  else {}

def file (method : String) (args : List Node) : Change :=
  match method, args with
  | "exist?", [path] => usingFiles (fileCall "existsSync" [path])
  | "exists?", [path] => usingFiles (fileCall "existsSync" [path])
  | "readlink", [path] => usingFiles (fileCall "readlinkSync" [path])
  | "realpath", [path] => usingFiles (fileCall "realpathSync" [path])
  | "rename", [source, target] => usingFiles (fileCall "renameSync" [source, target])
  | "chmod", mode :: files => changeMode "chmodSync" mode files
  | "lchmod", mode :: files => changeMode "lchmodSync" mode files
  | "chown", user :: group :: files => changeOwner "chownSync" user group files
  | "lchown", user :: group :: files => changeOwner "lchownSync" user group files
  | "ln", [source, target] => usingFiles (fileCall "linkSync" [source, target])
  | "link", [source, target] => usingFiles (fileCall "linkSync" [source, target])
  | "symlink", [source, target] => usingFiles (fileCall "symlinkSync" [source, target])
  | "truncate", [path, length] => usingFiles (fileCall "truncateSync" [path, length])
  | "stat", [path] => usingFiles (fileCall "statSync" [path])
  | "lstat", [path] => usingFiles (fileCall "lstatSync" [path])
  | "unlink", [path] => usingFiles (fileCall "unlinkSync" [path])
  | method, args => contents method args

/-- Opens a file for writing and closes it again. -/
def touch (path : Node) : Node :=
  fileCall "closeSync" [fileCall "openSync" [path, .string "w"]]

/-- Calls of `FileUtils`. Each element of an array literal gets a call of its own. -/
def fileUtils (method : String) (args : List Node) : Change :=
  match method, args with
  | "cd", [path] => plain (processCall "chdir" [path])
  | "pwd", [] => plain (processCall "cwd" [])
  | "cp", [source, target] => usingFiles (fileCall "copyFileSync" [source, target])
  | "copy", [source, target] => usingFiles (fileCall "copyFileSync" [source, target])
  | "mv", [source, target] => usingFiles (fileCall "renameSync" [source, target])
  | "move", [source, target] => usingFiles (fileCall "renameSync" [source, target])
  | "mkdir", [paths] => usingFiles (forEach "mkdirSync" paths.elements [])
  | "rmdir", [paths] => usingFiles (forEach "rmdirSync" paths.elements [])
  | "ln", [source, target] => usingFiles (fileCall "linkSync" [source, target])
  | "ln_s", [source, target] => usingFiles (fileCall "symlinkSync" [source, target])
  | "rm", [files] => usingFiles (forEach "unlinkSync" files.elements [])
  | "chmod", [mode, files] =>
      if mode.is .int then usingFiles (forEach "chmodSync" files.elements [octal mode]) else {}
  | "chown", [user, group, files] =>
      if user.is .int && group.is .int then
        usingFiles (forEach "chownSync" files.elements [user, group])
      else {}
  | "touch", files :: _ => usingFiles (.sequence (files.elements.map touch))
  | _, _ => {}

def temporaryName (start : Node) : Node :=
  if start.is .array then (start.nodeAt? 0).getD (.string "d") else start

def directory (method : String) (args : List Node) : Change :=
  match method, args with
  | "chdir", [path] => plain (processCall "chdir" [path])
  | "pwd", [] => plain (processCall "cwd" [])
  | "entries", args => usingFiles (fileCall "readdirSync" args)
  | "mkdir", [path] => usingFiles (fileCall "mkdirSync" [path])
  | "rmdir", [path] => usingFiles (fileCall "rmdirSync" [path])
  | "mktmpdir", [] => usingFiles (fileCall "mkdtempSync" [.string "d"])
  | "mktmpdir", [start] => usingFiles (fileCall "mkdtempSync" [temporaryName start])
  | _, _ => {}

def send (n : Node) : Change :=
  match n.symAt? 1, n.callArgs? with
  | some method, some args =>
      if n.isNilAt 0 then kernel method args
      else
        match (n.nodeAt? 0).bind Node.topConstant? with
        | some "File" => file method args
        | some "IO" => contents method args
        | some "FileUtils" => fileUtils method args
        | some "Dir" => directory method args
        | _ => {}
  | _, _ => {}

def isChangeDirectory (n : Node) : Bool :=
  n.is .send && n.symAt? 1 == some "chdir" && n.size == 3
    && (n.nodeAt? 0).bind Node.topConstant? == some "Dir"

/-- A block in another working directory goes back to the old one at its end. -/
def inDirectory (change : Node) (body : Option Node) : Node :=
  let goBack := processCall "chdir" [.new .gvar [.sym "$oldwd"]]
  let work := Node.sequence (change :: body.toList)
  .sequence [
    .new .gvasgn [.sym "$oldwd", .node (processCall "cwd" [])],
    .new .kwbegin [.node (.new .ensure [.node work, .node goBack])]]

def block (n : Node) : Change :=
  match n.nodeAt? 0 with
  | some change => if isChangeDirectory change then plain (inDirectory change (n.nodeAt? 2)) else {}
  | none => {}

def constant (n : Node) : Change :=
  match n.topConstant? with
  | some "ARGV" => { token := some argumentsToken }
  | some "ENV" => plain (.property (.global "process") "env")
  | some "STDIN" => plain (stream "stdin")
  | some "STDOUT" => plain (stream "stdout")
  | some "STDERR" => plain (stream "stderr")
  | _ => {}

def globalVariable (n : Node) : Change :=
  match n.symAt? 0 with
  | some "$stdin" => plain (stream "stdin")
  | some "$stdout" => plain (stream "stdout")
  | some "$stderr" => plain (stream "stderr")
  | _ => {}

/-- A command in backticks is run, and its output is the value. -/
def command (n : Node) : Change :=
  let text := match n.children with
    | [.node only] => only
    | parts => n.updated .dstr parts
  childProcess "execSync" [text, .entry "encoding" "utf8"]

def change (n : Node) : Change :=
  match n.kind with
  | .send => send n
  | .block => block n
  | .constant => constant n
  | .gvar => globalVariable n
  | .xstr => command n
  | .fileName => plain (.global "__filename")
  | _ => {}

def moduleDeclaration (name : String) : Node :=
  .new .casgn [.nil, .sym name, .node (.new .send [.nil, .sym "require", .node (.string name)])]

def declaration (token : String) : Option Node :=
  if token = childProcessToken then some (moduleDeclaration "child_process")
  else if token = fileToken then some (moduleDeclaration "fs")
  else if token = argumentsToken then
    some (.new .lvasgn [.sym "ARGV",
      .node (.invoke (.property (.global "process") "argv") "slice" [.integer 2])])
  else none

def apply (cx : Context) (rest : Node → FilterM Node) (n : Node) : FilterM Node := do
  let change := change n
  change.token.forM FilterM.require
  match change.replacement with
  | some replacement => cx.process replacement
  | none => rest n

end RubyScript.Filter.Host

namespace RubyScript.Filter

def host : Filter where
  name := "node"
  apply := Host.apply
  setupTokens := [Host.childProcessToken, Host.fileToken, Host.argumentsToken]
  setupDeclaration := Host.declaration

end RubyScript.Filter
