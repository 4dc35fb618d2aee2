import RubyScript.Proofs.Converter.Class

/-!
# What the converter leaves as it was

The rule for each kind of node, the conversion of a node with a check of its depth, and the
conversion of a program. Each rule writes what the generator returns, so by induction on how deep a
node may still be, every node does; and whatever writes in this sense keeps the frame of the
converter. A program has the text that the generator has for it.
-/

namespace RubyScript.Converter

open Emit

def dispatch (parse : Parser) (n : Node) : Conversion Unit :=
  match n.kind with
  | .int => borrow (Emit.int n) >>= put
  | .float => borrow (Emit.float n) >>= put
  | .str | .sym => borrow (Emit.str n) >>= put
  | .dstr | .dsym => interpolated parse n
  | .nilLit => put "null"
  | .trueLit => put "true"
  | .falseLit => put "false"
  | .selfRef => put "this"
  | .array => array parse n
  | .hash => hash parse n
  | .octal => octal n
  | .regexp => regexp parse n
  | .lvar => borrow (Emit.lvar n) >>= put
  | .lvasgn => lvasgn parse n
  | .ivar => ivar n
  | .ivasgn => ivasgn parse n
  | .gvar => gvar n
  | .gvasgn => gvasgn parse n
  | .constant => constant parse n
  | .casgn => casgn parse n
  | .masgn => masgn parse n
  | .mlhs => pattern parse n
  | .opAsgn => opAsgn parse n
  | .orAsgn | .andAsgn => logicalAsgn parse n
  | .send | .csend | .attr | .call => send parse n
  | .blockPass => blockPass parse n
  | .block => block parse n
  | .superCall | .zsuper => superCall parse n
  | .andOp | .orOp => logical parse n
  | .notOp => negation parse n
  | .begin | .kwbegin => sequence parse n
  | .rescue | .ensure => tryStatement parse n
  | .conditional => conditional parse n
  | .whileLoop | .untilLoop => whileLoop parse n
  | .whilePost | .untilPost => postLoop parse n
  | .forLoop => forLoop parse n
  | .next => nextJump parse n
  | .breakJump => borrow (Emit.breakJump n) >>= put
  | .returnJump => returnJump parse n
  | .autoreturn => autoreturn parse n
  | .methodDef | .singletonDef => methodDef parse n false
  | .classDef => classDef parse n
  | .moduleDef => moduleDef parse n
  | .irange | .erange => throw (.unsupported "range outside of a for loop" n)
  | .splat => throw (.unsupported "splat outside of an array or argument list" n)
  | .xstr => throw (.unsupported "backtick command" n)
  | .fileName => throw (.unsupported "__FILE__" n)
  | .cbase => throw (.malformed "(const (cbase) name)" n)
  | .pair => throw (.malformed "pair inside (hash ...)" n)
  | .regopt => throw (.malformed "regopt inside (regexp ...)" n)
  | .resbody => throw (.malformed "resbody inside (rescue ...)" n)
  | .args | .arg | .optarg | .restarg | .blockarg =>
      throw (.malformed "arguments inside a method or block" n)
  | .custom name => throw (.unsupported ("unknown node type '" ++ name ++ "'") n)

/-- Converts a node if that is not too deep. The recursion is bounded by `fuel`, but it is the depth
in the converter that is checked. -/
def parseWithin : Nat → Parser
  | 0, _, n => throw (.tooDeep n)
  | fuel + 1, position, n => do
      if maxDepth ≤ (← get).depth then throw (.tooDeep n)
      else nested position (dispatch (parseWithin fuel) n)

/-- Converts a node. No more than `maxDepth` nodes are open at any time, so the fuel is never used
up. -/
def parse : Parser := parseWithin maxDepth

def program (n : Node) : Conversion Unit := do
  let inside ← inFunction n [] false (parse .statement n)
  declarePending 0 inside.2

def convert (options : Options) (tree : Node) : Except ConvertError String :=
  let (result, c) := outcome (program tree) (start options)
  result.map fun _ => c.written

/-! ## Agreement with the generator -/

theorem known_lvar {n : Node} : Known (Emit.lvar n) := by
  unfold Emit.lvar
  grind

theorem puts_dispatch {depth : Nat} {parse : Parser} {emit : Emitter} (h : Parses depth parse emit)
    (n : Node) :
    Puts depth (dispatch parse n) (Emit.dispatch emit n) := by
  intro env before
  unfold dispatch Emit.dispatch
  cases n.kind with
  | int => exact Puts.of_known known_int _ _
  | float => exact Puts.of_known known_float _ _
  | str | sym => exact Puts.of_known known_str _ _
  | dstr | dsym => exact puts_interpolated h _ _
  | nilLit | trueLit | falseLit | selfRef => exact .put rfl
  | array => exact puts_array h _ _
  | hash => exact puts_hash h _ _
  | octal => exact puts_octal _ _
  | regexp => exact puts_regexp h _ _
  | lvar => exact Puts.of_known known_lvar _ _
  | lvasgn => exact puts_lvasgn h _ _
  | ivar => exact puts_ivar _ _
  | ivasgn => exact puts_ivasgn h _ _
  | gvar => exact puts_gvar _ _
  | gvasgn => exact puts_gvasgn h _ _
  | constant => exact puts_constant h _ _
  | casgn => exact puts_casgn h _ _
  | masgn => exact puts_masgn h _ _
  | mlhs => exact puts_pattern h n _ _
  | opAsgn => exact puts_opAsgn h _ _
  | orAsgn | andAsgn => exact puts_logicalAsgn h _ _
  | send | csend | attr | call => exact puts_send h _ _
  | blockPass => exact puts_blockPass h _ _
  | block => exact puts_block h _ _
  | superCall | zsuper => exact puts_superCall h _ _
  | andOp | orOp => exact puts_logical h _ _
  | notOp => exact puts_negation h _ _
  | begin | kwbegin => exact puts_sequence h _ _
  | rescue | ensure => exact puts_tryStatement h _ _
  | conditional => exact puts_conditional h _ _
  | whileLoop | untilLoop => exact puts_whileLoop h _ _
  | whilePost | untilPost => exact puts_postLoop h _ _
  | forLoop => exact puts_forLoop h _ _
  | next => exact puts_nextJump h _ _
  | breakJump => exact Puts.of_known known_breakJump _ _
  | returnJump => exact puts_returnJump h _ _
  | autoreturn => exact puts_autoreturn h _ _
  | methodDef | singletonDef => exact puts_methodDef h _ _
  | classDef => exact puts_classDef h _ _
  | moduleDef => exact puts_moduleDef h _ _
  | _ => exact .stop

theorem Writes.depth_step {α β : Type} {env : Env} {depth : Nat} {before : String}
    {f : Converter → Conversion α}
    {x : Emit β} {post : α → β → String → Prop}
    (h : ∀ c : Converter, c.depth = depth → Writes env depth before (f c) x post) :
    Writes env depth before (get >>= f) x post := by
  rintro c rfl rfl rfl
  exact h c rfl c rfl rfl rfl

/-- The fuel is enough for the depth that is left. -/
theorem parses_parseWithin {fuel depth : Nat} (hfuel : maxDepth ≤ depth + fuel) :
    Parses depth (parseWithin fuel) (node (maxDepth - depth)) := by
  induction fuel generalizing depth with
  | zero =>
      intro position n env before
      rw [show maxDepth - depth = 0 from Nat.sub_eq_zero_of_le hfuel]
      exact .stop
  | succ fuel ih =>
      intro position n env before
      refine .depth_step ?_
      rintro c rfl
      by_cases hdeep : maxDepth ≤ c.depth
      · rw [if_pos hdeep, Nat.sub_eq_zero_of_le hdeep]
        exact .stop
      · have hleft : maxDepth - c.depth = maxDepth - (c.depth + 1) + 1 := by omega
        rw [if_neg hdeep, hleft]
        exact .nested (puts_dispatch (ih (by omega)) n _ before)

theorem parses_parse (depth : Nat) : Parses depth parse (node (maxDepth - depth)) :=
  parses_parseWithin (Nat.le_add_left _ _)

/-! ## The frame -/

/-- The second converter has the frame of the first one: nothing that was entered is left or entered
again, no bound name is lost, and the text that was written is still in front. -/
structure Frames (c after : Converter) : Prop where
  options : after.options = c.options
  depth : after.depth = c.depth
  position : after.position = c.position
  nextMeaning : after.nextMeaning = c.nextMeaning
  bodies : after.bodies = c.bodies
  methods : after.methods = c.methods
  scope : c.scope.Extends after.scope
  written : ∃ text, after.written = c.written ++ text

theorem frames_after (c : Converter) (text : String) {ops : List Scope.Op}
    (hops : Scope.Balanced ops) :
    c.Frames (c.after text ops) :=
  ⟨rfl, rfl, rfl, rfl, rfl, rfl, hops.extends c.scope, text, rfl⟩

/-- A node keeps the frame of any converter, whether it has a text or stops with an error. It writes
the text that the generator returns for it, and leaves the same scope; or both stop with the same
error. -/
theorem parse_frame (c : Converter) (position : Position) (n : Node) :
    c.Frames (outcome (parse position n) c).2 ∧
      match outcome (node (maxDepth - c.depth) position n c.env) c.scope with
      | (.ok text, s) =>
          outcome (parse position n) c =
            (.ok (), { c with written := c.written ++ text, scope := s })
      | (.error e, _) => (outcome (parse position n) c).1 = .error e := by
  obtain ⟨text, ops, hops, ⟨hrun, hx⟩ | ⟨e, s, hrun, hx⟩⟩ :=
    (parses_parse c.depth position n).run (c := c) rfl
  · rw [hrun, hx]
    exact ⟨frames_after c text hops, rfl⟩
  · rw [hrun, hx]
    exact ⟨frames_after c text hops, rfl⟩

/-- A program is converted to the text that the generator has for it. -/
theorem convert_eq_generate (options : Options) (tree : Node) :
    convert options tree = generate options tree := by
  have hprogram : Writes (start options).env 0 "" (program tree) (Emit.program tree)
      fun _ text written => written = "" ++ text := by
    refine .declarePending (fun _ => 0) (fun _ => "") (fun text => text)
      (Writes.mono (.inFunction (parses_parse 0 .statement tree _ _)) ?_) ?_
    · rintro a b written ⟨hpending, hwritten⟩
      exact ⟨hpending, rfl, hwritten⟩
    · intro text pending
      simp only [String.empty_append]
  obtain ⟨text, ops, -, hstate, hresult⟩ := hprogram (start options) rfl rfl rfl
  show (outcome (program tree) (start options)).1.map
    (fun _ => (outcome (program tree) (start options)).2.written) =
    (outcome (Emit.program tree (start options).env) (start options).scope).1
  rw [hstate]
  rcases hx : outcome (Emit.program tree (start options).env)
    (start options).scope with ⟨e | own, s⟩ <;>
    rw [hx] at hresult
  · rw [hresult]
    rfl
  · obtain ⟨-, _, hok, hwritten⟩ := hresult
    rw [hok]
    exact congrArg Except.ok hwritten

end RubyScript.Converter
