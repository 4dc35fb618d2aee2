import RubyScript.Proofs.Converter.Bracket
import RubyScript.Proofs.Converter.Literal
import RubyScript.Proofs.Emit.ConciseBody
import RubyScript.Proofs.Emit.Flattening

/-!
# Converting functions
-/

namespace RubyScript.Converter

open Emit

section Conversions

variable (parse : Parser)

/-! ## Parameters -/

mutual

def paramPattern : Node → Conversion Unit
  | .mk kind children location => do
      let n := Node.mk kind children location
      match kind with
      | .mlhs => do
          unless ← borrow Emit.isModern do
            throw (.unsupported "destructuring parameter requires es2015" n)
          put "["
          paramPatterns children false
          put "]"
      | .restarg => do
          put "..."
          borrow (symChild n 0 "(restarg name)") >>= put
      | _ => borrow (symChild n 0 "(arg name)") >>= put

def paramPatterns : List Child → Bool → Conversion Unit
  | [], _ => pure ()
  | .node n :: rest, wrote => do
      putIf wrote ", "
      paramPattern n
      paramPatterns rest true
  | _ :: rest, wrote => paramPatterns rest wrote

end

def params : List Node → Nat → Conversion (List String)
  | [], _ => return []
  | param :: rest, count => do
      match param.kind with
      | .arg | .blockarg => do
          let name ← borrow (symChild param 0 "(arg name)")
          putIf (0 < count) ", "
          put name
          params rest (count + 1)
      | .optarg => do
          let name ← borrow (symChild param 0 "(optarg name default)")
          let default ← borrow (nodeChild param 1 "(optarg name default)")
          putIf (0 < count) ", "
          put name
          if ← borrow Emit.isModern then
            put " = "
            operand parse default Precedence.assign
            params rest (count + 1)
          else
            let value ← capture (operand parse default Precedence.assign)
            return defaultStatement name value :: (← params rest (count + 1))
      | .restarg => do
          unless rest.all (·.is .blockarg) do
            throw (.unsupported "parameters after a rest parameter" param)
          match param.symAt? 0 with
          | none => params rest count
          | some name => do
              if ← borrow Emit.isModern then
                putIf (0 < count) ", "
                put "..."
                put name
                params rest (count + 1)
              else
                unless rest.isEmpty do
                  throw (.unsupported "block parameter after a rest parameter requires es2015"
                    param)
                let keyword := (← borrow Emit.level).localKeyword
                return restStatement keyword name count :: (← params rest count)
      | .mlhs => do
          putIf (0 < count) ", "
          paramPattern param
          params rest (count + 1)
      | kind => throw (.unsupported ("parameter of type " ++ kind.name) param)

def paramList (args : Node) : Conversion (List String) := do
  put "("
  let prologue ← params parse args.childNodes 0
  put ")"
  return prologue

/-! ## Bodies -/

/-- Writes a body with statements at its top, from its opening brace on, and returns the place
behind that. -/
def bodyBehind (prologue : List String) (body : Option Node) (form : FunctionForm) :
    Conversion Nat := do
  put (if form = .arrow then " => \x7b" else " \x7b")
  let place ← mark
  put (Text.joined "; " prologue)
  match body with
  | none => put "\x7d"
  | some body => do
      let _ ← separated (if prologue.isEmpty then "" else "; ")
        (parse .statement (if form = .constructor then body else body.autoreturn))
      put "\x7d"
  return place

def paramsAndBody (args : Node) (body : Option Node) (form : FunctionForm) : Conversion Nat :=
  match form, soleParam? args with
  | .arrow, some name => do
      put name
      bodyBehind parse [] body form
  | _, _ => do
      let prologue ← paramList parse args
      bodyBehind parse prologue body form

def functionTail (args : Node) (body : Option Node) (form : FunctionForm) : Conversion Unit := do
  unless args.is .args do throw (.malformed "(args param...)" args)
  let inside ← inFunction (body.getD args) (paramNames args) form.inherits
    (withNextMeaning .returnValue (paramsAndBody parse args body form))
  declarePending inside.1 inside.2

def methodDef (n : Node) (isAsync : Bool) : Conversion Unit := do
  let isSingleton := n.is .singletonDef
  let offset := if isSingleton then 1 else 0
  let shape :=
    if isSingleton then "(defs receiver name (args ...) body)" else "(def name (args ...) body)"
  let name ← borrow (symChild n offset shape)
  let args ← borrow (nodeChild n (offset + 1) shape)
  let body ← borrow (optionalChild n (offset + 2) shape)
  unless isIdentifier name do
    throw (.unsupported ("method name '" ++ name ++ "' outside of a class") n)
  if isSingleton then
    let object ← borrow (nodeChild n 0 shape)
    if object.is .selfRef then put "this" else operand parse object Precedence.call
    put "."
    put name
    put " = "
    putIf isAsync "async "
    put "function"
  else
    putIf isAsync "async "
    put "function "
    put name
  functionTail parse args body .method

/-! ## Blocks -/

def arrowValue (n : Node) : Conversion Unit := do
  if n.is .hash then
    put "("
    parse .expression n
    put ")"
  else operand parse n Precedence.assign

/-- An arrow function without braces. The names that are pending at its end are lost. -/
def conciseArrow (args value : Node) : Conversion Unit := do
  unless args.is .args do throw (.malformed "(args param...)" args)
  let _ ← inFunction value (paramNames args) true <| withNextMeaning .returnValue do
    match soleParam? args with
    | some name => put name
    | none => do
        let _ ← paramList parse args
    put " => "
    arrowValue parse value

def arrow (args : Node) (body : Option Node) : Conversion Unit :=
  match (bareBody body).filter isExpressionBody with
  | none => functionTail parse args (bareBody body) .arrow
  | some value => conciseArrow parse args value

def block (n : Node) : Conversion Unit := do
  let shape := "(block call (args ...) body)"
  let call ← borrow (nodeChild n 0 shape)
  let args ← borrow (nodeChild n 1 shape)
  let body ← borrow (optionalChild n 2 shape)
  if isLambdaBlock n then
    if ← borrow Emit.isModern then arrow parse args body
    else
      put "function"
      functionTail parse args body .closure
  else
    if call.is .zsuper then throw (.unsupported "block passed to an implicit super call" n)
    parse (← borrow read).position (call.withChildren (call.children ++ [.node (lambda args body)]))

end Conversions

section

variable {depth : Nat} {env : Env} {before : String} {parse : Parser} {emit : Emitter}

theorem writes_paramPatterns {children : List Child}
    (hpattern : ∀ n, .node n ∈ children → Puts depth (paramPattern n) (Emit.paramPattern n))
    (wrote : Bool) :
    Writes env depth before (paramPatterns children wrote) (Emit.paramPatterns children)
      fun _ texts written => written = before ++ Text.listed ", " wrote texts := by
  induction children generalizing before wrote with
  | nil => exact .done (by rw [Text.listed_nil, String.append_empty])
  | cons c rest ih =>
      have hrest := fun m hm => hpattern m (List.mem_cons_of_mem _ hm)
      cases c with
      | node n =>
          refine .putIf_step ((hpattern n List.mem_cons_self).next fun text => ?_)
          refine (ih hrest true).finish ?_
          rintro - texts written rfl
          simp only [Text.listed_cons, String.append_assoc]
      | _ => exact ih hrest wrote

theorem puts_paramPattern (n : Node) : Puts depth (paramPattern n) (Emit.paramPattern n) := by
  induction n using Node.children_induction with
  | node n ih =>
      intro env before
      obtain ⟨kind, children, location⟩ := n
      unfold paramPattern Emit.paramPattern
      dsimp only
      cases kind with
      | mlhs =>
          refine .ask reads_isModern (.asks reads_isModern (.guard fun _ => .put_step ?_))
          have hchild (n : Node) (hn : .node n ∈ children) :
              Puts depth (paramPattern n) (Emit.paramPattern n) := by
            obtain ⟨i, hi⟩ := List.mem_iff_getElem?.mp hn
            exact ih i n hi
          refine (writes_paramPatterns hchild false).step ?_
          rintro - texts written rfl
          refine .put ?_
          simp only [bracketed, Text.listed_false, String.append_assoc]
      | restarg =>
          refine .put_step (.check known_symChild fun name _ => .put ?_)
          exact String.append_assoc
      | _ => exact Puts.of_known known_symChild env before

/-- What the parameters behind `count` written ones are: the same statements for the top of the
body, none of them empty, and the same text. -/
def SameParams (before : String) (count : Nat) (prologue : List String) (params : Params)
    (written : String) : Prop :=
  prologue = params.prologue ∧ (∀ statement ∈ prologue, statement ≠ "") ∧
    written = before ++ Text.listed ", " (0 < count) params.written

namespace SameParams

variable {count : Nat} {prologue : List String} {others : Params} {text written : String}

/-- One more parameter is written in front of the others. -/
theorem write (hsame :
    SameParams (before ++ (if (0 < count : Bool) then ", " else "") ++ text) (count + 1)
    prologue others written) : SameParams before count prologue (others.write text) written := by
  obtain ⟨hprologue, hne, rfl⟩ := hsame
  refine ⟨hprologue, hne, ?_⟩
  rw [Params.write, Text.listed_cons]
  simp only [Nat.zero_lt_succ, decide_true, String.append_assoc]

/-- One more statement is wanted in front of the others. -/
theorem prepare (hsame : SameParams before count prologue others written) (htext : text ≠ "") :
    SameParams before count (text :: prologue) (others.prepare text) written :=
  ⟨congrArg _ hsame.1, List.forall_mem_cons.mpr ⟨htext, hsame.2.1⟩, hsame.2.2⟩

end SameParams

theorem defaultStatement_ne_empty (name value : String) : defaultStatement name value ≠ "" := by
  delta defaultStatement
  simp only [ne_eq, String.append_eq_empty_iff, String.reduceEq, false_and, not_false_eq_true]

theorem restStatement_ne_empty (keyword name : String) (start : Nat) :
    restStatement keyword name start ≠ "" := by
  delta restStatement
  simp only [ne_eq, String.append_eq_empty_iff, String.reduceEq, and_false, false_and,
    not_false_eq_true]

variable (h : Parses depth parse emit)
include h

theorem writes_params (items : List Node) (count : Nat) :
    Writes env depth before (params parse items count) (Emit.params emit items count)
      (SameParams before count) := by
  induction items generalizing before count with
  | nil => exact .done ⟨rfl, List.forall_mem_nil _, by rw [Text.listed_nil, String.append_empty]⟩
  | cons param rest ih =>
      unfold params Emit.params
      dsimp only
      cases param.kind with
      | arg | blockarg =>
          refine .check known_symChild fun name _ =>
            .putIf_step (.put_step ((ih (count + 1)).finish ?_))
          exact fun _ _ _ hsame => hsame.write
      | optarg =>
          refine .check known_symChild fun name _ => .check known_nodeChild fun default _ => ?_
          refine .putIf_step (.put_step (.ask reads_isModern ?_))
          by_cases hmodern : env.options.level.isBlockScoped = true
          · rw [if_pos hmodern]
            refine .put_step ((puts_operand h).next fun value =>
              (ih (count + 1)).ending fun _ _ _ hsame => ?_)
            refine .asks reads_isModern ?_
            rw [if_pos hmodern]
            refine .done (SameParams.write ?_)
            simpa only [String.append_assoc] using hsame
          · rw [if_neg hmodern]
            refine (Yields.capture (puts_operand h)).next fun value =>
              (ih (count + 1)).step fun _ _ _ hsame => ?_
            refine .asks reads_isModern ?_
            rw [if_neg hmodern]
            exact .done (hsame.prepare (defaultStatement_ne_empty _ _)).write
      | restarg =>
          refine .guard fun _ => ?_
          cases param.symAt? 0 with
          | none => exact ih count
          | some name =>
              refine .ask reads_isModern (.asks reads_isModern (.ite (fun _ => ?_) fun _ => ?_))
              · refine .putIf_step
                  (.put_step (.put_step ((ih (count + 1)).finish fun _ _ _ hsame => ?_)))
                refine SameParams.write ?_
                simpa only [String.append_assoc] using hsame
              · refine .guard fun _ =>
                  .ask reads_level (.asks reads_level ((ih count).step fun _ _ _ hsame => ?_))
                exact .done (hsame.prepare (restStatement_ne_empty _ _ _))
      | mlhs =>
          refine .putIf_step
            ((puts_paramPattern param).next fun text => (ih (count + 1)).finish ?_)
          exact fun _ _ _ hsame => hsame.write
      | _ => exact .stop

theorem writes_paramList {args : Node} :
    Writes env depth before (paramList parse args)
      (paramsOf emit args) fun prologue params written =>
        prologue = params.prologue ∧ (∀ statement ∈ prologue, statement ≠ "") ∧
        written = before ++ params.text := by
  refine .put_step ?_
  have hput {prologue : List String} {params : Params} {written : String}
      (hsame : SameParams (before ++ "(") 0 prologue params written) :
      Writes env depth written
        (do put ")"; return prologue) (pure params) fun prologue params written =>
          prologue = params.prologue ∧ (∀ statement ∈ prologue, statement ≠ "") ∧
          written = before ++ params.text := by
    obtain ⟨hprologue, hne, rfl⟩ := hsame
    refine .put_step (.done ⟨hprologue, hne, ?_⟩)
    simp only [Params.text, parenthesized, Nat.lt_irrefl, decide_false, Text.listed_false,
      String.append_assoc]
  have hstep := (writes_params h args.childNodes 0).step fun _ _ _ hsame => hput hsame
  rwa [bind_pure] at hstep

/-! ## Bodies -/

omit h in
/-- The statements of a body behind those for its top. -/
theorem sequenced_prologue {prologue : List String} (hne : ∀ statement ∈ prologue, statement ≠ "")
    (text : String) :
    sequenced (prologue ++ [text]) =
      Text.joined "; " prologue ++ behind (if prologue.isEmpty then "" else "; ") text := by
  have hfilter : prologue.filter (· != "") = prologue :=
    List.filter_eq_self.mpr fun statement hmem => bne_iff_ne.mpr (hne statement hmem)
  unfold sequenced behind
  rw [List.filter_append, hfilter]
  by_cases htext : text = ""
  · rw [if_pos htext, List.filter_cons_of_neg (by simp [htext]), List.filter_nil, List.append_nil,
      String.append_empty]
  · rw [if_neg htext, List.filter_cons_of_pos (by simp [htext]), List.filter_nil]
    cases prologue with
    | nil => rfl
    | cons first rest =>
        rw [joined_append (List.cons_ne_nil _ _) (List.cons_ne_nil _ _)]
        simp only [Text.joined, List.isEmpty_cons, Bool.false_eq_true, if_false,
          String.append_assoc]

omit h in
theorem sequenced_of_forall_ne {prologue : List String}
    (hne : ∀ statement ∈ prologue, statement ≠ "") :
    sequenced prologue = Text.joined "; " prologue := by
  rw [sequenced, List.filter_eq_self.mpr fun statement hmem => bne_iff_ne.mpr (hne statement hmem)]

/-- The place is that between the two parts of the text. -/
theorem writes_bodyBehind {head : String} {prologue : List String} {body : Option Node}
    {form : FunctionForm}
    (hne : ∀ statement ∈ prologue, statement ≠ "") :
    Writes env depth (before ++ head) (bodyBehind parse prologue body form)
      (match body with
        | none =>
            return (head ++ (if form = .arrow then " => \x7b" else " \x7b"), sequenced prologue)
        | some body => do
            let text ← emit .statement (if form = .constructor then body else body.autoreturn)
            return (head ++ (if form = .arrow then " => \x7b" else " \x7b"),
              sequenced (prologue ++ [text])))
      fun place parts written =>
        place = (before ++ parts.1).length ∧ written = before ++ parts.1 ++
          (parts.2 ++ "\x7d") := by
  refine .put_step (.mark_step (.put_step ?_))
  cases body with
  | none =>
      refine .put_step (.done ⟨?_, ?_⟩)
      · simp only [String.append_assoc]
      · simp only [sequenced_of_forall_ne hne, String.append_assoc]
  | some body =>
      refine (writes_separated (h .statement _)).step ?_
      rintro _ text written ⟨-, rfl⟩
      refine .put_step (.done ⟨?_, ?_⟩)
      · simp only [String.append_assoc]
      · simp only [sequenced_prologue hne, String.append_assoc]

theorem writes_paramsAndBody {args : Node} {body : Option Node} {form : FunctionForm} :
    Writes env depth before (paramsAndBody parse args body form) (headAndBody emit args body form)
      fun place parts written =>
        place = (before ++ parts.1).length ∧ written = before ++ parts.1 ++
          (parts.2 ++ "\x7d") := by
  have hlist :
      Writes env depth before (do
          let prologue ← paramList parse args
          bodyBehind parse prologue body form)
        (do
          let params ← paramsOf emit args
          match body with
          | none =>
              return (params.text ++ (if form = .arrow then " => \x7b" else " \x7b"),
                sequenced params.prologue)
          | some body => do
              let text ← emit .statement (if form = .constructor then body else body.autoreturn)
              return (params.text ++ (if form = .arrow then " => \x7b" else " \x7b"),
                sequenced (params.prologue ++ [text])))
        fun place parts written =>
          place = (before ++ parts.1).length ∧ written = before ++ parts.1 ++
            (parts.2 ++ "\x7d") := by
    refine (writes_paramList h).step ?_
    rintro prologue params - ⟨rfl, hne, rfl⟩
    exact writes_bodyBehind h hne
  cases form with
  | arrow =>
      unfold paramsAndBody headAndBody
      cases soleParam? args with
      | some name => exact .put_step (writes_bodyBehind h (List.forall_mem_nil _))
      | none => exact hlist
  | _ => exact hlist

theorem puts_functionTail {args : Node} {body : Option Node} {form : FunctionForm} :
    Puts depth (functionTail parse args body form) (Emit.functionTail emit args body form) := by
  intro env before
  refine .guard fun _ => ?_
  refine .declarePending (fun place => place) Prod.fst (fun parts => parts.2 ++ "\x7d")
    (.inFunction (.withNextMeaning (writes_paramsAndBody h))) ?_
  rintro ⟨head, statements⟩ pending
  simp only [String.append_assoc]

theorem puts_methodDef {n : Node} {isAsync : Bool} :
    Puts depth (methodDef parse n isAsync) (Emit.methodDef emit n isAsync) := by
  intro env before
  refine .check known_symChild fun name _ => .check known_nodeChild fun args _ => ?_
  refine .check known_optionalChild fun body _ => .guard fun _ => .ite (fun _ => ?_) fun _ => ?_
  · have hrest (objectText : String) : Writes env depth (before ++ objectText)
        (do
          put "."
          put name
          put " = "
          putIf isAsync "async "
          put "function"
          functionTail parse args body .method)
        (do
          return objectText ++ "." ++ name ++ " = " ++ (if isAsync then "async " else "") ++
            "function"
            ++ (← Emit.functionTail emit args body .method))
        fun _ text written => written = before ++ text := by
      refine .put_step (.put_step
        (.put_step (.putIf_step (.put_step ((puts_functionTail h).last fun text => ?_)))))
      simp only [String.append_assoc]
    refine .check known_nodeChild fun object _ => ?_
    exact .ite (fun _ => .put_step (hrest "this")) fun _ => (puts_operand h).next hrest
  · refine .putIf_step (.put_step (.put_step ((puts_functionTail h).last fun text => ?_)))
    simp only [String.append_assoc]

/-! ## Blocks -/

theorem puts_arrowValue {n : Node} : Puts depth (arrowValue parse n) (Emit.arrowValue emit n) := by
  intro env before
  refine .ite (fun _ => ?_) fun _ => puts_operand h env before
  refine .put_step ((h .expression n).next fun text => .put ?_)
  simp only [parenthesized, String.append_assoc]

theorem puts_conciseArrow {args value : Node} : Puts depth (conciseArrow parse args value) (do
    unless args.is .args do malformed "(args param...)" args
    let (text, _) ← conciseFunction emit args value
    return text) := by
  intro env before
  refine .guard fun _ => ?_
  have hvalue (env : Env) (head : String) : Writes env depth (before ++ head)
      (do
        put " => "
        arrowValue parse value)
      (do return head ++ " => " ++ (← Emit.arrowValue emit value))
      fun _ text written => written = before ++ text := by
    refine .put_step ((puts_arrowValue h).last fun text => ?_)
    simp only [String.append_assoc]
  have hinside (env : Env) : Writes env depth before
      (do
        match soleParam? args with
        | some name => put name
        | none => do
            let _ ← paramList parse args
        put " => "
        arrowValue parse value)
      (do
        let head ← arrowHead emit args
        return head ++ " => " ++ (← Emit.arrowValue emit value))
      fun _ text written => written = before ++ text := by
    unfold arrowHead
    cases soleParam? args with
    | some name => exact .put_step (hvalue env name)
    | none =>
        rw [map_eq_pure_bind, bind_assoc]
        refine (writes_paramList h).step ?_
        rintro _ params - ⟨-, -, rfl⟩
        exact hvalue env params.text
  refine (Writes.inFunction (.withNextMeaning (hinside _))).step ?_
  rintro ⟨-, -⟩ ⟨text, -⟩ written ⟨-, rfl⟩
  exact .done rfl

theorem puts_arrow {args : Node} {body : Option Node} :
    Puts depth (arrow parse args body) (Emit.arrow emit args body) := by
  intro env before
  unfold arrow
  cases hvalue : conciseValue? body with
  | none =>
      rw [arrow_of_not_concise hvalue, show (bareBody body).filter isExpressionBody =
        none from hvalue]
      exact puts_functionTail h env before
  | some value =>
      rw [arrow_of_concise hvalue, show (bareBody body).filter isExpressionBody =
        some value from hvalue]
      exact puts_conciseArrow h env before

theorem puts_block {n : Node} : Puts depth (block parse n) (Emit.block emit n) := by
  intro env before
  refine .check known_nodeChild fun call _ => .check known_nodeChild fun args _ => ?_
  refine .check known_optionalChild fun body _ => .ite (fun _ => ?_) fun _ => ?_
  · refine .ask reads_isModern
      (.asks reads_isModern (.ite (fun _ => puts_arrow h env before) fun _ => ?_))
    refine .put_step ((puts_functionTail h).last fun text => ?_)
    exact String.append_assoc
  · refine .ite (fun _ => .stop_step) fun _ => ?_
    exact .ask reads_read (.asks reads_read (h _ _ env before))

end

end RubyScript.Converter
