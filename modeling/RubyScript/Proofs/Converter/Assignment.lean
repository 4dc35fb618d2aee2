import RubyScript.Proofs.Converter.Literal
import RubyScript.Proofs.Emit.Likeness.Rule

/-!
# Converting variables and assignments
-/

namespace RubyScript.Converter

open Emit

section Conversions

variable (parse : Parser)

def putKeyword : Option String → Conversion Unit
  | some keyword => do
      put keyword
      put " "
  | none => pure ()

def assignedValue : Option Node → Conversion Unit
  | some value => do
      put " = "
      operand parse value Precedence.assign
  | none => pure ()

/-! ## Variables -/

def lvasgn (n : Node) : Conversion Unit := do
  let name ← borrow (Emit.symChild n 0 "(lvasgn name value)")
  match ← borrow (Emit.optionalChild n 1 "(lvasgn name value)") with
  | none => put name
  | some value => do
      let statement ← borrow Emit.isStatement
      let keyword ← assign name statement
      putKeyword keyword
      put name
      assignedValue parse (some value)

def putIvar (n : Node) (name : String) : Conversion Unit := do
  let bare := (Text.after? name "@").getD name
  unless isIdentifier bare do throw (.malformed "an instance variable name" n)
  put "this._"
  put bare

def ivar (n : Node) : Conversion Unit := do
  putIvar n (← borrow (Emit.symChild n 0 "(ivar name)"))

def ivasgn (n : Node) : Conversion Unit := do
  let name ← borrow (Emit.symChild n 0 "(ivasgn name value)")
  putIvar n name
  let value ← borrow (Emit.optionalChild n 1 "(ivasgn name value)")
  assignedValue parse value

def putGvar (n : Node) (name : String) : Conversion Unit := do
  unless isIdentifier name do
    throw (.unsupported ("global variable '" ++ name ++ "' has no JavaScript equivalent") n)
  put name

def gvar (n : Node) : Conversion Unit := do
  putGvar n (← borrow (Emit.symChild n 0 "(gvar name)"))

def gvasgn (n : Node) : Conversion Unit := do
  let name ← borrow (Emit.symChild n 0 "(gvasgn name value)")
  putGvar n name
  let value ← borrow (Emit.optionalChild n 1 "(gvasgn name value)")
  assignedValue parse value

/-! ## Constants -/

def constantIn (scope : Node) (name : String) : Conversion Unit := do
  if scope.is .cbase then
    put globalObject
    put "."
    put name
  else
    operand parse scope Precedence.call
    put "."
    put name

/-- A constant as it is resolved against the lower part of the stack of bodies. -/
def qualified (scope : Option Node) (name : String) : List Body → Conversion Unit
  | [] =>
      match scope with
      | some scope => constantIn parse scope name
      | none => put name
  | body :: outer =>
      match scope with
      | some scope => constantIn parse scope name
      | none =>
          if body.members.contains name then do
            let ownerScope ← borrow (Emit.optionalChild body.owner 0 "(const scope name)")
            let ownerName ← borrow (Emit.symChild body.owner 1 "(const scope name)")
            qualified ownerScope ownerName outer
            put "."
            put name
          else qualified none name outer

def constantText (scope : Option Node) (name : String) : Conversion Unit := do
  qualified parse scope name (← borrow read).bodies

def constant (n : Node) : Conversion Unit := do
  let scope ← borrow (Emit.optionalChild n 0 "(const scope name)")
  let name ← borrow (Emit.symChild n 1 "(const scope name)")
  constantText parse scope name

def casgn (n : Node) : Conversion Unit := do
  let shape := "(casgn scope name value)"
  let scope ← borrow (Emit.optionalChild n 0 shape)
  let name ← borrow (Emit.symChild n 1 shape)
  let value ← borrow (Emit.optionalChild n 2 shape)
  let isQualified := scope.isSome || (← borrow (Emit.isMember name))
  let statement ← borrow Emit.isStatement
  let keyword := (← borrow Emit.level).constantKeyword
  putKeyword (if value.isSome && !isQualified && statement then some keyword else none)
  constantText parse scope name
  assignedValue parse value

/-! ## Targets and compound assignments -/

def target (n : Node) : Conversion Unit := do
  let refused : Conversion Unit := throw (.unsupported ("assignment to " ++ n.kind.name) n)
  match n.kind with
  | .lvasgn | .ivasgn | .gvasgn => parse .expression (n.withChildren (n.children.take 1))
  | .casgn => parse .expression (n.withChildren (n.children.take 2))
  | .send =>
      if !n.isNilAt 0 && n.size == 2 then do
        let object ← borrow (Emit.nodeChild n 0 "(send receiver name)")
        let name ← borrow (Emit.symChild n 1 "(send receiver name)")
        unless isIdentifier name do throw (.unsupported (noEquivalent name) n)
        operand parse object Precedence.call
        put "."
        put name
      else if n.symAt? 1 == some "[]" && n.size == 3 then do
        let object ← borrow (Emit.nodeChild n 0 "(send receiver :[] index)")
        let index ← borrow (Emit.nodeChild n 2 "(send receiver :[] index)")
        operand parse object Precedence.call
        put "["
        parse .expression index
        put "]"
      else refused
  | .attr => parse .expression n
  | _ => refused

def opAsgn (n : Node) : Conversion Unit := do
  let shape := "(op_asgn target operator value)"
  let object ← borrow (Emit.nodeChild n 0 shape)
  let op ← borrow (Emit.symChild n 1 shape)
  let value ← borrow (Emit.nodeChild n 2 shape)
  unless compoundOperators.contains op do
    throw (.unsupported ("compound assignment with '" ++ op ++ "'") n)
  let text ← capture (target parse object)
  put text
  if op == "**" && !(← borrow Emit.level).hasExponentOperator then
    put " = Math.pow("
    put text
    put ", "
    operand parse value Precedence.assign
    put ")"
  else
    put " "
    put op
    put "= "
    operand parse value Precedence.assign

def logicalDeclaration (object : Node) : Conversion Unit := do
  if object.is .lvasgn then
    let name ← borrow (Emit.symChild object 0 "(lvasgn name)")
    if ← borrow Emit.isStatement then
      match ← hoist name with
      | some keyword => do
          put keyword
          put " "
          if ← borrow Emit.isModern then
            put name
            put "; "
      | none => pure ()
    else
      let _ ← assign name false
  else pure ()

def logicalAsgn (n : Node) : Conversion Unit := do
  let object ← borrow (Emit.nodeChild n 0 "(or_asgn target value)")
  let value ← borrow (Emit.nodeChild n 1 "(or_asgn target value)")
  let (op, strength) := if n.is .orAsgn then ("||", Precedence.or) else ("&&", Precedence.and)
  logicalDeclaration object
  let text ← capture (target parse object)
  put text
  if (← borrow Emit.level).hasLogicalAssignment then
    put " "
    put op
    put "= "
    operand parse value Precedence.assign
  else
    put " = "
    put text
    put " "
    put op
    put " "
    operand parse value (strength + 1)

/-! ## Destructuring -/

def sendPattern (n : Node) : Conversion Unit := do
  let method ← borrow (Emit.symChild n 1 "(send receiver method)")
  match n.children with
  | [object, _, index] =>
      if method == "[]=" then target parse (n.withChildren [object, .sym "[]", index])
      else throw (.unsupported ("destructuring into '" ++ method ++ "'") n)
  | [object, _] =>
      match Text.before? method "=" with
      | some name => target parse (n.withChildren [object, .sym name])
      | none => throw (.unsupported ("destructuring into '" ++ method ++ "'") n)
  | _ => throw (.unsupported ("destructuring into '" ++ method ++ "'") n)

mutual

def pattern : Node → Conversion Unit
  | .mk kind children location => do
      let n := Node.mk kind children location
      match kind with
      | .mlhs => do
          unless ← borrow Emit.isModern do throw (.unsupported "destructuring requires es2015" n)
          put "["
          patterns n children false
          put "]"
      | .splat => do
          put "..."
          match children with
          | .node inner :: _ => pattern inner
          | _ => throw (.malformed "(splat target)" n)
      | .send => sendPattern parse n
      | _ => target parse n

/-- The targets of a pattern, with a separator before the first one if something is written. -/
def patterns (owner : Node) : List Child → Bool → Conversion Unit
  | [], _ => pure ()
  | .node n :: rest, wrote =>
      if n.is .splat && n.children.isEmpty then
        if rest.isEmpty then pure ()
        else throw (.unsupported "anonymous splat before the last target" n)
      else do
        putIf wrote ", "
        pattern n
        patterns owner rest true
  | _ :: _, _ => throw (.malformed "(mlhs target...)" owner)

end

def declaredOf : List String → Conversion (List String)
  | [] => return []
  | name :: rest => do
      let keyword ← assign name true
      let others ← declaredOf rest
      return if keyword.isSome then name :: others else others

def patternDeclaration (targets : Node) : Conversion Unit := do
  let names := localsOf targets
  if ← borrow Emit.isStatement then
    let (fresh, _) := (← borrow get).partition names
    let declared ← declaredOf fresh
    let keyword := (← borrow Emit.level).localKeyword
    if declared.isEmpty then pure ()
    else if declared.length == names.length && areLocalTargets targets.children then
      put keyword
      put " "
    else
      put keyword
      put " "
      put (Text.joined ", " declared)
      put "; "
  else
    names.forM fun name => do
      let _ ← assign name false

def destructuring (targets value : Node) : Conversion Unit := do
  patternDeclaration targets
  pattern parse targets
  assignedValue parse (some value)

def masgn (n : Node) : Conversion Unit := do
  let shape := "(masgn (mlhs target...) value)"
  let targets ← borrow (Emit.nodeChild n 0 shape)
  let value ← borrow (Emit.nodeChild n 1 shape)
  unless targets.is .mlhs do throw (.malformed shape n)
  if ← borrow Emit.isModern then destructuring parse targets value
  else
    let lowered ← borrow (Emit.lowered n targets value)
    parse (← borrow read).position lowered

end Conversions

section

variable {depth : Nat} {env : Env} {before text : String} {parse : Parser} {emit : Emitter}

theorem putKeyword_step {α β : Type} {f : Unit → Conversion α} {x : Emit β}
    {post : α → β → String → Prop}
    {keyword : Option String} (h : Writes env depth (before ++ keywordText keyword) (f ()) x post) :
    Writes env depth before (putKeyword keyword >>= f) x post := by
  cases keyword with
  | none =>
      rw [keywordText, String.append_empty] at h
      exact h
  | some keyword =>
      rw [keywordText, ← String.append_assoc] at h
      show Writes env depth before ((put keyword >>= fun _ => put " ") >>= f) x post
      rw [bind_assoc]
      exact .put_step (.put_step h)

variable (h : Parses depth parse emit)
include h

theorem puts_assignedValue (value : Option Node) :
    Puts depth (assignedValue parse value) (Emit.assignedValue emit value) := by
  intro env before
  cases value with
  | none => exact .done (String.append_empty).symm
  | some value =>
      refine .put_step ((puts_operand h).last fun text => ?_)
      exact String.append_assoc

theorem puts_lvasgn {n : Node} : Puts depth (lvasgn parse n) (Emit.lvasgn emit n) := by
  intro env before
  refine .check known_symChild fun name _ => .check known_optionalChild fun value _ => ?_
  cases value with
  | none => exact .put rfl
  | some value =>
      refine .ask reads_isStatement (.asks reads_isStatement (yields_assign.next fun keyword => ?_))
      refine putKeyword_step (.put_step ((puts_assignedValue h _).last fun text => ?_))
      simp only [String.append_assoc]

/-! ## Variables -/

omit h in
theorem puts_putIvar {n : Node} {name : String} :
    Puts depth (putIvar n name) (ivarText n name) := by
  intro env before
  refine .guard fun _ => .put_step (.put ?_)
  exact String.append_assoc

omit h in
theorem puts_ivar {n : Node} : Puts depth (ivar n) (Emit.ivar n) := by
  intro env before
  exact .check known_symChild fun name _ => puts_putIvar env before

theorem puts_ivasgn {n : Node} : Puts depth (ivasgn parse n) (Emit.ivasgn emit n) := by
  intro env before
  refine .check known_symChild fun name _ => puts_putIvar.next fun target => ?_
  refine .check known_optionalChild fun value _ => (puts_assignedValue h value).last fun text => ?_
  exact String.append_assoc

omit h in
theorem puts_putGvar {n : Node} {name : String} :
    Puts depth (putGvar n name) (gvarText n name) := by
  intro env before
  exact .guard fun _ => .put rfl

omit h in
theorem puts_gvar {n : Node} : Puts depth (gvar n) (Emit.gvar n) := by
  intro env before
  exact .check known_symChild fun name _ => puts_putGvar env before

theorem puts_gvasgn {n : Node} : Puts depth (gvasgn parse n) (Emit.gvasgn emit n) := by
  intro env before
  refine .check known_symChild fun name _ => puts_putGvar.next fun target => ?_
  refine .check known_optionalChild fun value _ => (puts_assignedValue h value).last fun text => ?_
  exact String.append_assoc

/-! ## Constants -/

theorem puts_constantIn {scope : Node} {name : String} :
    Puts depth (constantIn parse scope name) (Emit.constantIn emit scope name) := by
  intro env before
  refine .ite (fun _ => ?_) fun _ => ?_
  · refine .put_step (.put_step (.put ?_))
    simp only [String.append_assoc]
  · refine (puts_operand h).next fun text => .put_step (.put ?_)
    simp only [String.append_assoc]

theorem puts_qualified (scope : Option Node) (name : String) (bodies : List Body) :
    Puts depth (qualified parse scope name bodies) (Emit.qualified emit scope name bodies) := by
  induction bodies generalizing scope name with
  | nil =>
      intro env before
      cases scope with
      | some scope => exact puts_constantIn h env before
      | none => exact .put rfl
  | cons body outer ih =>
      intro env before
      cases scope with
      | some scope => exact puts_constantIn h env before
      | none =>
          unfold qualified Emit.qualified
          refine .ite (fun _ => ?_) fun _ => ih none name env before
          refine .check known_optionalChild fun ownerScope _ =>
            .check known_symChild fun ownerName _ => ?_
          refine (ih ownerScope ownerName).next fun text => .put_step (.put ?_)
          simp only [String.append_assoc]

theorem puts_constantText {scope : Option Node} {name : String} :
    Puts depth (constantText parse scope name) (Emit.constantText emit scope name) := by
  intro env before
  exact .ask reads_read (.asks reads_read (puts_qualified h scope name env.bodies env before))

theorem puts_constant {n : Node} : Puts depth (constant parse n) (Emit.constant emit n) := by
  intro env before
  refine .check known_optionalChild fun scope _ => .check known_symChild fun name _ => ?_
  exact puts_constantText h env before

theorem puts_casgn {n : Node} : Puts depth (casgn parse n) (Emit.casgn emit n) := by
  intro env before
  refine .check known_optionalChild fun scope _ => .check known_symChild fun name _ => ?_
  refine .check known_optionalChild fun value _ => .ask reads_isMember (.asks reads_isMember ?_)
  refine .ask reads_isStatement (.asks reads_isStatement (.ask reads_level (.asks reads_level ?_)))
  refine putKeyword_step ((puts_constantText h).next fun target => ?_)
  refine (puts_assignedValue h value).last fun text => ?_
  simp only [String.append_assoc]

/-! ## Targets and compound assignments -/

theorem puts_target {n : Node} : Puts depth (target parse n) (Emit.target emit n) := by
  intro env before
  unfold target Emit.target
  dsimp only
  cases n.kind with
  | lvasgn | ivasgn | gvasgn | casgn | attr => exact h .expression _ env before
  | send =>
      refine .ite (fun _ => ?_) fun _ => .ite (fun _ => ?_) fun _ => .stop
      · refine .check known_nodeChild fun object _ => .check known_symChild fun name _ =>
          .guard fun _ => ?_
        refine (puts_operand h).next fun text => .put_step (.put ?_)
        simp only [String.append_assoc]
      · refine .check known_nodeChild fun object _ => .check known_nodeChild fun index _ => ?_
        refine (puts_operand h).next fun text =>
          .put_step ((h .expression index).next fun inner => .put ?_)
        simp only [bracketed, String.append_assoc]
  | _ => exact .stop

theorem puts_opAsgn {n : Node} : Puts depth (opAsgn parse n) (Emit.opAsgn emit n) := by
  intro env before
  refine .check known_nodeChild fun object _ => .check known_symChild fun op _ => ?_
  refine .check known_nodeChild fun value _ => .guard fun _ => ?_
  refine (Yields.capture (puts_target h)).next fun text => .put_step (.ask reads_level ?_)
  split
  · refine .put_step (.put_step (.put_step ((puts_operand h).next fun valueText => ?_)))
    refine .asks reads_level ?_
    rw [if_pos ‹_›]
    refine .put ?_
    simp only [String.append_assoc]
  · refine .put_step (.put_step (.put_step ((puts_operand h).ending fun valueText => ?_)))
    refine .asks reads_level ?_
    rw [if_neg ‹_›]
    refine .done ?_
    simp only [String.append_assoc]

omit h in
theorem puts_logicalDeclaration {object : Node} :
    Puts depth (logicalDeclaration object) (Emit.logicalDeclaration object) := by
  intro env before
  unfold logicalDeclaration Emit.logicalDeclaration
  refine .ite (fun _ => ?_) fun _ => .done (String.append_empty).symm
  refine .check known_symChild fun name _ => .ask reads_isStatement (.asks reads_isStatement ?_)
  refine .ite (fun _ => yields_hoist.next fun keyword => ?_) fun _ => ?_
  · cases keyword with
    | none => exact .done (String.append_empty).symm
    | some keyword =>
        refine .put_step (.put_step (.ask reads_isModern (.asks reads_isModern ?_)))
        cases env.options.level.isBlockScoped with
        | true =>
            refine .put_step (.put ?_)
            simp only [if_true, String.append_assoc]
        | false =>
            refine .done ?_
            simp only [Bool.false_eq_true, if_false, String.append_assoc, String.append_empty]
  · exact yields_assign.next fun _ => .done (String.append_empty).symm

theorem puts_logicalAsgn {n : Node} :
    Puts depth (logicalAsgn parse n) (Emit.logicalAsgn emit n) := by
  intro env before
  refine .check known_nodeChild fun object _ => .check known_nodeChild fun value _ => ?_
  dsimp only
  refine puts_logicalDeclaration.next fun declaration => ?_
  refine (Yields.capture (puts_target h)).next fun text => .put_step ?_
  refine .ask reads_level (.asks reads_level (.ite (fun _ => ?_) fun _ => ?_))
  · refine .put_step (.put_step (.put_step ((puts_operand h).last fun valueText => ?_)))
    simp only [String.append_assoc]
  · refine .put_step (.put_step
      (.put_step (.put_step (.put_step ((puts_operand h).last fun _ => ?_)))))
    simp only [String.append_assoc]

/-! ## Destructuring -/

theorem puts_sendPattern {n : Node} :
    Puts depth (sendPattern parse n) (Emit.sendPattern emit n) := by
  intro env before
  refine .check known_symChild fun method _ => ?_
  rcases n.children with _ | ⟨object, _ | ⟨name, _ | ⟨index, _ | ⟨other, rest⟩⟩⟩⟩
  · exact .stop
  · exact .stop
  · cases Text.before? method "=" with
    | none => exact .stop
    | some name => exact puts_target h env before
  · exact .ite (fun _ => puts_target h env before) fun _ => .stop
  · exact .stop

omit h in
theorem writes_patterns {owner : Node} {children : List Child}
    (hpattern : ∀ n, .node n ∈ children → Puts depth (pattern parse n) (Emit.pattern emit n))
    (wrote : Bool) :
    Writes env depth before (patterns parse owner children wrote)
      (Emit.patterns emit owner children)
      fun _ texts written => written = before ++ Text.listed ", " wrote texts := by
  have hnone (before : String) (wrote : Bool) : before = before ++ Text.listed ", " wrote [] := by
    rw [Text.listed_nil, String.append_empty]
  induction children generalizing before wrote with
  | nil => exact .done (hnone before wrote)
  | cons c rest ih =>
      cases c with
      | node n =>
          unfold patterns Emit.patterns
          refine .ite (fun _ => .ite (fun _ => .done (hnone before wrote)) fun _ => .stop)
            fun _ => ?_
          refine .putIf_step ((hpattern n List.mem_cons_self).next fun text => ?_)
          refine (ih (fun m hm => hpattern m (List.mem_cons_of_mem _ hm)) true).finish ?_
          rintro - texts written rfl
          simp only [Text.listed_cons, String.append_assoc]
      | _ => exact .stop

theorem puts_pattern (n : Node) : Puts depth (pattern parse n) (Emit.pattern emit n) := by
  induction n using Node.children_induction with
  | node n ih =>
      intro env before
      obtain ⟨kind, children, location⟩ := n
      unfold pattern Emit.pattern
      dsimp only
      cases kind with
      | mlhs =>
          refine .ask reads_isModern (.asks reads_isModern (.guard fun _ => .put_step ?_))
          have hchild (n : Node) (hn : .node n ∈ children) :
              Puts depth (pattern parse n) (Emit.pattern emit n) := by
            obtain ⟨i, hi⟩ := List.mem_iff_getElem?.mp hn
            exact ih i n hi
          refine (writes_patterns hchild false).step ?_
          rintro - texts written rfl
          refine .put ?_
          simp only [bracketed, Text.listed_false, String.append_assoc]
      | splat =>
          refine .put_step ?_
          rcases children with _ | ⟨c, rest⟩
          · exact .stop
          · cases c with
            | node inner =>
                refine (ih 0 inner rfl).last fun text => ?_
                exact String.append_assoc
            | _ => exact .stop
      | send => exact puts_sendPattern h env before
      | _ => exact puts_target h env before

omit h in
theorem yields_declaredOf (names : List String) :
    Yields depth (declaredOf names) (Emit.declaredOf names) := by
  induction names with
  | nil => exact .done []
  | cons name rest ih =>
      intro env before
      exact yields_assign.next fun keyword => ih.next fun others => .done ⟨rfl, rfl⟩

omit h in
theorem puts_patternDeclaration {targets : Node} :
    Puts depth (patternDeclaration targets) (Likeness.patternDeclaration targets) := by
  intro env before
  refine .ask reads_isStatement (.asks reads_isStatement (.ite (fun _ => ?_) fun _ => ?_))
  · refine .scope_step fun s => (yields_declaredOf _).next fun declared => ?_
    refine .ask reads_level
      (.asks reads_level (.ite (fun _ => .done (String.append_empty).symm) fun _ => ?_))
    refine .ite (fun _ => .put_step (.put ?_)) fun _ => .put_step (.put_step (.put_step (.put ?_)))
    · simp only [String.append_assoc]
    · simp only [String.append_assoc]
  · have hassigned : Yields depth ((localsOf targets).forM fun name => do let _ ← assign name false)
        ((localsOf targets).forM fun name => do let _ ← Emit.assign name false) :=
      .forM fun name _ _ => yields_assign.next fun _ => .done ⟨rfl, rfl⟩
    refine (hassigned env before).finish ?_
    rintro - - written ⟨-, rfl⟩
    exact (String.append_empty).symm

theorem puts_destructuring {targets value : Node} :
    Puts depth (destructuring parse targets value) (Emit.destructuring emit targets value) := by
  intro env before
  rw [Likeness.destructuring_eq]
  refine puts_patternDeclaration.next fun declaration =>
    (puts_pattern h targets).next fun text => ?_
  refine (puts_assignedValue h _).last fun valueText => ?_
  simp only [String.append_assoc]

omit h in
theorem known_lowered {n targets value : Node} : Known (Emit.lowered n targets value) := by
  unfold lowered loweredValues
  grind

theorem puts_masgn {n : Node} : Puts depth (masgn parse n) (Emit.masgn emit n) := by
  intro env before
  refine .check known_nodeChild fun targets _ => .check known_nodeChild fun value _ =>
    .guard fun _ => ?_
  refine .ask reads_isModern
    (.asks reads_isModern (.ite (fun _ => puts_destructuring h env before) fun _ => ?_))
  exact .asks reads_read (.check known_lowered fun lowered _ =>
    .ask reads_read (h _ lowered env before))

end

end RubyScript.Converter
