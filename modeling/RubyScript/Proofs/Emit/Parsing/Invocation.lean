import RubyScript.Proofs.Emit.Grouping
import RubyScript.Proofs.Emit.Parsing.Function

/-!
# Calls and operators as phrases

Calls take a member of their receiver, whose text is made of members or calls. Operators ask for the
strength of their own place on both sides.
-/

namespace RubyScript.Emit

open Ecma (Parses)

section Rules

variable {isBody : String → Prop} {emit : Emitter} {env : Env} {n : Node} {s t : Scope}
    {text : String} {object : Option Node}
  {method : String} {args : List Node}

/-! ## Calls -/

theorem parses_argumentList (hemit : Reader isBody emit) {l : Nat} {o isCall : Bool}
    {callee : String}
    (hl : 18 ≤ l ∧ l ≤ 19) (hcallee : Parses isBody (.expression l false o) callee)
    (h : Returns (argumentList emit isCall args) env s text t) :
    Parses isBody (.expression (if isCall || !args.isEmpty then 18 else l) false o)
      (callee ++ text) := by
  unfold argumentList at h
  split at h
  · rename_i hcall
    simp only [returns_bind, returns_pure] at h
    obtain ⟨inner, _, hinner, rfl, -⟩ := h
    obtain ⟨texts, rfl, htexts⟩ := parses_arguments hemit hinner
    rw [if_pos hcall]
    exact .call (hcallee.loosen hl.1 id id) htexts
  · rename_i hread
    obtain ⟨rfl, -⟩ := returns_pure.mp h
    rw [if_neg hread, String.append_empty]
    exact hcallee

/-- A function that is applied to an array of arguments. -/
theorem parses_apply {isBody : String → Prop} {l : Nat} {o : Bool} {callee self list : String}
    (hl : 18 ≤ l ∧ l ≤ 19) (hcallee : Parses isBody (.expression l false o) callee)
    (hself : Parses isBody .element self) (hlist : Parses isBody .element list) :
    Parses isBody (.expression 18 false o)
      (callee ++ ".apply(" ++ self ++ ", " ++ list ++ ")") := by
  have happly : Ecma.isName "apply" = true := by decide
  have hargs : ∀ x ∈ [self, list], Parses isBody .element x := by
    simpa using ⟨hself, hlist⟩
  have hcall := hcallee.methodCall hl happly rfl hargs
  have htext : callee ++ ".apply(" ++ self ++ ", " ++ list ++ ")" =
      callee ++ ".apply(" ++ Text.joined ", " [self, list] ++ ")" := by
    simp only [Text.joined, String.append_assoc]
  rwa [htext]

/-- What is asked of the object of a call: a number stands in parentheses, and where there is no
object the name of the method stands alone. -/
def IsCallable (level : Level) (method : String) : Option Node → Prop
  | some object => (!object.isOneOf [.int, .float] && misreadObject level object) = false
  | none => isReadable method = true

/-- How a call with this object begins, as its operand does if it has one. -/
def opensCall (level : Level) (object : Option Node) : Bool :=
  object.any (opensOperand level Precedence.call)

/-- The receiver of a method, and the method as a member of it. -/
theorem parses_method (hemit : Reader isBody emit) {receiving : Node} {objectText : String}
    (hobject : IsCallable env.options.level method (some receiving))
    (hname : isIdentifier method = true)
    (h : Returns (receiver emit receiving) env s objectText t) :
    Parses isBody .element objectText ∧ ∃ l, (18 ≤ l ∧ l ≤ 19) ∧
      (isMemberObject env.options.level receiving
        (isMemberChain env.options.level env.bodies receiving) = true → l = 19) ∧
      Parses isBody
        (.expression l false (opensOperand env.options.level Precedence.call receiving))
        (objectText ++ "." ++ method) := by
  obtain ⟨l, hl, hmember, hparses⟩ := parses_receiver hemit hobject h
  exact ⟨.plain (hparses.loosen (Nat.le_trans (by decide) hl.1) id id), l, hl, hmember,
    .member hl hparses (Ecma.isName_of_isIdentifier hname)⟩

theorem parses_applyCall (hemit : Reader isBody emit)
    (hobject : IsCallable env.options.level method object)
    (hname : isIdentifier method = true)
    (h : Returns (applyCall emit object method args) env s text t) :
    Parses isBody (.expression 18 false (opensCall env.options.level object)) text := by
  cases object with
  | none =>
      simp only [applyCall, returns_bind, returns_pure] at h
      obtain ⟨_, _, ⟨rfl, rfl⟩, list, _, hlist, rfl, -⟩ := h
      obtain ⟨l, hl, -, hlist⟩ := parses_elements hemit hlist
      have hnull : Parses isBody .element "null" :=
        .plain ((Parses.literal (by decide)).loosen (by decide) id id)
      exact parses_apply (by decide) (parses_name hobject) hnull
        (.plain (hlist.loosen (Nat.le_trans (by decide) hl.1) id id))
  | some receiving =>
      simp only [applyCall, returns_bind, returns_pure] at h
      obtain ⟨objectText, _, hreceiver, _, _, ⟨rfl, rfl⟩, list, _, hlist, rfl, -⟩ := h
      obtain ⟨hself, l, hl, -, hcallee⟩ := parses_method hemit hobject hname hreceiver
      obtain ⟨l', hl', -, hlist⟩ := parses_elements hemit hlist
      exact parses_apply hl hcallee hself
        (.plain (hlist.loosen (Nat.le_trans (by decide) hl'.1) id id))

theorem isIdentifier_of_returns_plainCall {isCall : Bool}
    (h : Returns (plainCall emit n object method args isCall) env s text t) :
    isIdentifier method = true := by
  rw [← Bool.not_eq_false]
  intro hname
  simp [plainCall, hname] at h

/-- A call binds like a call, and if it has no argument list like its callee. -/
theorem parses_plainCall (hemit : Reader isBody emit) {isCall : Bool}
    (hobject : IsCallable env.options.level method object)
    (h : Returns (plainCall emit n object method args isCall) env s text t) :
    ∃ l, (18 ≤ l ∧ l ≤ 19) ∧
      ((object.all fun o =>
        isMemberObject env.options.level o (isMemberChain env.options.level env.bodies o)) = true →
        (isCall || !args.isEmpty) = false → l = 19) ∧
      Parses isBody (.expression l false (opensCall env.options.level object)) text := by
  have hname := isIdentifier_of_returns_plainCall h
  simp only [plainCall, hname, if_true, returns_bind, returns_isModern] at h
  obtain ⟨modern, _, -, h⟩ := h
  split at h
  · rename_i happlied
    have hargs : args.isEmpty = false := by
      cases args with
      | nil => simp at happlied
      | cons => rfl
    refine ⟨18, by decide, fun _ hread => ?_, parses_applyCall hemit hobject hname h⟩
    simp [hargs] at hread
  · cases object with
    | none =>
        simp only [returns_bind, returns_pure] at h
        obtain ⟨_, _, ⟨rfl, rfl⟩, list, _, hlist, rfl, -⟩ := h
        have hparses := parses_argumentList hemit (by decide) (parses_name hobject) hlist
        rw [String.empty_append]
        refine ⟨_, ?_, fun _ hread => ?_, hparses⟩
        · split <;> decide
        · rw [hread]
          rfl
    | some receiving =>
        simp only [returns_bind, returns_pure] at h
        obtain ⟨objectText, _, hreceiver, _, _, ⟨rfl, rfl⟩, list, _, hlist, rfl, -⟩ := h
        obtain ⟨-, l, hl, hmember, hcallee⟩ := parses_method hemit hobject hname hreceiver
        have hparses := parses_argumentList hemit hl hcallee hlist
        refine ⟨_, ?_, fun hobject hread => ?_, hparses⟩
        · split
          · decide
          · exact hl
        · rw [hread]
          exact hmember hobject

/-- A node with the strength of a call whose text is that of a plain call. -/
theorem fits_plainCall (hemit : Reader isBody emit) {owner : Node} {isCall : Bool}
    (hobject : IsCallable env.options.level method object) (hnode : n.nodeAt? 0 = object)
    (hleads : object.isSome = true → leads env.options.level n = some Precedence.call)
    (hchain : isMemberChain env.options.level env.bodies n = true →
      (isCall || !args.isEmpty) = false ∧
      (object.all fun o =>
        isMemberObject env.options.level o (isMemberChain env.options.level env.bodies o)) = true)
    (h : Returns (plainCall emit owner object method args isCall) env s text t) :
    Fits isBody env n text := by
  obtain ⟨l, hl, hmember, hparses⟩ := parses_plainCall hemit hobject h
  refine .member hparses hl (fun h => hmember (hchain h).2 (hchain h).1) fun hopens => ?_
  cases object with
  | none => cases hopens
  | some receiving => exact opens_of_leads hnode (hleads rfl) hopens

/-! ## Logic -/

/-- Outside of argument lists no child is a block argument. -/
theorem not_blockPass {child : Node} {i : Nat} (hn : isMisread env s n = false)
    (harguments : hasArguments n = false) (hchild : n.nodeAt? i = some child) :
    child.is .blockPass = false := by
  have hstray : hasStrayBlock n = false := by
    simp only [isMisread, Bool.or_eq_false_iff] at hn
    exact hn.1.2
  rw [hasStrayBlock, harguments, Bool.not_false, Bool.and_true] at hstray
  refine Bool.eq_false_iff.mpr (List.any_eq_false.mp hstray child ?_)
  obtain ⟨c, hc, hnode⟩ := Option.bind_eq_some_iff.mp hchild
  exact List.mem_filterMap.mpr ⟨c, List.mem_of_getElem? hc, hnode⟩

/-- No receiver is a block argument. -/
theorem receiver_not_blockPass {receiving : Node} (hn : isMisread env s n = false)
    (hkind : n.is .superCall = false) (hnode : n.nodeAt? 0 = some receiving) :
    receiving.is .blockPass = false := by
  cases hblock : receiving.is .blockPass with
  | false => rfl
  | true =>
      have harguments : hasArguments n = false := by simp [hasArguments, hkind, hnode, hblock]
      rw [← hblock]
      exact not_blockPass hn harguments hnode

/-- Both sides of an operator, the right one bound more tightly than the operator itself. -/
theorem parses_binary (hemit : Reader isBody emit) {left right : Node} {x y op : String} {l : Nat}
    {u v : Scope}
    (hop : (.mark op, op, l) ∈ Ecma.binaryOperators) (hl : l + 1 ≤ Precedence.call)
    (hleft : left.is .blockPass = false) (hright : right.is .blockPass = false)
    (hx : Returns (operand emit left l) env s x t)
    (hy : Returns (operand emit right (l + 1)) env u y v) :
    Parses isBody (.expression l false (opensOperand env.options.level l left))
      (x ++ " " ++ op ++ " " ++ y) :=
  .binary hop (parses_operand hemit (.inl hleft) (Nat.le_of_succ_le hl) hx)
    (parses_operand hemit (.inl hright) hl hy)

theorem misreadCall_of (hn : isMisread env s n = false)
    (hkind : n.isOneOf [.send, .csend, .attr, .call] = true) : misreadCall env n = false := by
  obtain ⟨kind, children, location⟩ := n
  simp only [isMisread, Bool.or_eq_false_iff] at hn
  cases kind <;> first | exact hn.2 | cases hkind

theorem misreadCall_object (kind : Kind) (receiving : Node) (rest : List Child)
    (location : Option Location) :
    misreadCall env (.mk kind (.node receiving :: .sym method :: rest) location) =
      ((accesses (.mk kind (.node receiving :: .sym method :: rest) location) method &&
          !receiving.isOneOf [.int, .float] && misreadObject env.options.level receiving) ||
        ((Node.mk kind (.node receiving :: .sym method :: rest) location).is .send &&
          method == "new" && isPlainConstructor receiving &&
            !isMemberChain env.options.level env.bodies receiving)) := by
  unfold misreadCall
  rfl

theorem isInteger_of_isPlainConstructor (h : isPlainConstructor n = true) :
    isInteger n = false := by
  obtain ⟨kind, children, location⟩ := n
  cases kind <;> first | rfl | cases h

theorem ofNode_readSend (level : Level) (receiving : Node) (method : String)
    (location : Option Location) :
    Precedence.ofNode level (.mk .send [.node receiving, .sym method] location) =
      if ["!", "-@", "+@", "~"].contains method then Precedence.unary
      else if method = "new" ∧
          !(Node.mk .send [.node receiving, .sym method] location).isMethod then
        Precedence.new
      else Precedence.call := rfl

/-- A constructor that stands without parentheses is made of members. -/
theorem parses_constructor (hemit : Reader isBody emit) {receiving : Node} {u : Scope}
    (hn : (isPlainConstructor receiving &&
      !isMemberChain env.options.level env.bodies receiving) = false)
    (h : Returns (emit .expression receiving) env s text u) :
    ∃ o, Parses isBody (.expression 19 false o)
      (if isPlainConstructor receiving then text else parenthesized text) := by
  have hfits := hemit.fits h
  split
  · rename_i hplain
    have hchain : isMemberChain env.options.level env.bodies receiving = true := by
      simpa [hplain] using hn
    refine ⟨_, hfits.loosen ?_ (fun h => ?_) id⟩
    · exact Nat.le_of_eq (if_pos hchain).symm
    · rw [isInteger_of_isPlainConstructor hplain] at h
      cases h
  · exact ⟨false, hfits.value.grouped (by decide)⟩

theorem fits_construction (hemit : Reader isBody emit) {receiving : Node}
    {location : Option Location}
    (hshape : n = .mk .send (.node receiving :: .sym "new" :: args.map .node) location)
    (hn : isMisread env s n = false)
    (h : Returns (construction emit n receiving args) env s text t) : Fits isBody env n text := by
  have hcall := misreadCall_of hn (by rw [hshape]; rfl)
  have hchain : isMemberChain env.options.level env.bodies n = (n.isMethod || !args.isEmpty) := by
    rw [hshape]
    simp [isMemberChain]
  have hconstructor : (isPlainConstructor receiving &&
      !isMemberChain env.options.level env.bodies receiving) = false := by
    rw [hshape, misreadCall_object] at hcall
    exact (Bool.or_eq_false_iff.mp hcall).2
  unfold construction at h
  simp only [returns_bind, returns_isModern] at h
  obtain ⟨modern, _, ⟨rfl, rfl⟩, h⟩ := h
  split at h
  · simp at h
  · simp only [returns_bind, returns_pure] at h
    obtain ⟨inner, _, hinner, list, _, hlist, rfl, -⟩ := h
    obtain ⟨o, hparses⟩ := parses_constructor hemit hconstructor hinner
    unfold argumentList at hlist
    rw [← hchain] at hlist
    split at hlist
    · simp only [returns_bind, returns_pure] at hlist
      obtain ⟨inside, _, hinside, rfl, -⟩ := hlist
      obtain ⟨texts, rfl, htexts⟩ := parses_arguments hemit hinside
      exact .primary (.construction hparses htexts)
    · rename_i hbare
      obtain ⟨rfl, -⟩ := returns_pure.mp hlist
      rw [Bool.not_eq_true] at hbare
      rw [String.append_empty]
      refine .operator (.bareConstruction hparses) hbare ?_ ?_ ?_ (absurd · Bool.false_ne_true)
      · rw [hshape]
        rfl
      · rw [hshape]
        rfl
      · rw [hchain, Bool.or_eq_false_iff] at hbare
        obtain rfl : args = [] := by simpa using hbare.2
        rw [hshape] at hbare ⊢
        rw [List.map_nil, ofNode_readSend]
        simp_all [Precedence.new]

/-! ## Operators with a receiver -/

theorem isMemberChain_objectSend (receiving : Node) (rest : List Child)
    (location : Option Location) :
    isMemberChain env.options.level env.bodies
      (.mk .send (.node receiving :: .sym method :: rest) location) =
      if method = "new" then
        (Node.mk .send (.node receiving :: .sym method :: rest) location).isMethod || !rest.isEmpty
      else
        ((isIdentifier method && rest.isEmpty &&
            !(Node.mk .send (.node receiving :: .sym method :: rest) location).isMethod)
          || (method == "[]" && rest.length == 1))
          && isMemberObject env.options.level receiving
            (isMemberChain env.options.level env.bodies receiving) := by
  rw [isMemberChain]

/-- Only methods with the name of a property have argument lists. -/
theorem hasArguments_of_not_isIdentifier {first : Child} {rest : List Child}
    {location : Option Location} (hmethod : isIdentifier method = false) :
    hasArguments (.mk .send (first :: .sym method :: rest) location) = false := by
  simp [hasArguments, Node.is, Node.isOneOf, Node.symAt?, Node.child?, Child.sym?, hmethod]

/-- An operator is not made of members. -/
theorem isMemberChain_operator {receiving : Node} {rest : List Child} {location : Option Location}
    (hmethod : isIdentifier method = false) (hnew : method ≠ "new")
    (hindex : method = "[]" → rest.length ≠ 1) :
    isMemberChain env.options.level env.bodies
      (.mk .send (.node receiving :: .sym method :: rest) location) = false := by
  have helement : (method == "[]" && rest.length == 1) = false := by simpa using hindex
  rw [isMemberChain_objectSend, if_neg hnew, hmethod, helement]
  rfl

theorem fits_prefix {receiving : Node} {location : Option Location}
    (hmethod : method ∈ ["!", "-@", "+@", "~"])
    (hparses : Parses isBody (.expression Precedence.unary false false) text) :
    Fits isBody env (.mk .send [.node receiving, .sym method] location) text := by
  simp only [List.mem_cons, List.not_mem_nil, or_false] at hmethod
  have hchain : isMemberChain env.options.level env.bodies
      (.mk .send [.node receiving, .sym method] location) = false := by
    rcases hmethod with rfl | rfl | rfl | rfl
    all_goals exact isMemberChain_operator (by decide) (by decide) (by decide)
  refine .operator hparses hchain rfl rfl ?_ (absurd · Bool.false_ne_true)
  rcases hmethod with rfl | rfl | rfl | rfl <;> exact Nat.le_refl _

/-- An element of an object is made of members if the object is. -/
theorem parses_element (hemit : Reader isBody emit) {receiving index : Node}
    (hobject : (!receiving.isOneOf [.int, .float] &&
      misreadObject env.options.level receiving) = false)
    (h : Returns (element emit receiving index) env s text t) :
    ∃ l, (18 ≤ l ∧ l ≤ 19) ∧
      (isMemberObject env.options.level receiving
        (isMemberChain env.options.level env.bodies receiving) = true → l = 19) ∧
      Parses isBody
        (.expression l false (opensOperand env.options.level Precedence.call receiving)) text := by
  simp only [element, returns_bind, returns_pure] at h
  obtain ⟨objectText, _, hreceiver, key, _, hkey, rfl, -⟩ := h
  obtain ⟨l, hl, hmember, hparses⟩ := parses_receiver hemit hobject hreceiver
  have hkey : Parses isBody (.expression 1 _ _) key :=
    (hemit.fits hkey).value.loosen (by decide) id id
  exact ⟨l, hl, hmember, .index hl hparses hkey⟩

theorem mem_leftOperators {strength : Nat} (h : Precedence.ofOperator? method = some strength) :
    method = "**" ∨ method ∈ leftOperators := by
  unfold Precedence.ofOperator? at h
  split at h <;> first | (cases h; done) | decide

theorem not_isIdentifier_of_ofOperator? {strength : Nat}
    (h : Precedence.ofOperator? method = some strength) : isIdentifier method = false := by
  rw [Bool.eq_false_iff]
  intro hname
  rw [ofOperator?_of_isIdentifier hname] at h
  cases h

theorem sendLeads_of_ofOperator? {level : Level} {strength : Nat}
    (h : Precedence.ofOperator? method = some strength) (hpower : method ≠ "**") :
    sendLeads level method = some strength := by
  have hspecial : ["new", "!", "-@", "+@", "~"].contains method = false := by
    rw [Bool.eq_false_iff, ne_eq, List.contains_iff_mem]
    intro hmem
    simp only [List.mem_cons, List.not_mem_nil, or_false] at hmem
    rcases hmem with rfl | rfl | rfl | rfl | rfl <;> cases h
  rw [sendLeads, hspecial, if_neg Bool.false_ne_true, if_neg hpower, h]
  rfl

/-- What `accesses` holds of is no constructor and no operator. -/
theorem isCallable_of_accesses {receiving : Node} {kind : Kind} {rest : List Child}
    {location : Option Location} (hn : isMisread env s n = false)
    (hkind : kind ∈ [.send, .csend, .attr, .call])
    (hshape : n = .mk kind (.node receiving :: .sym method :: rest) location)
    (haccesses : accesses n method = true) :
    IsCallable env.options.level method (some receiving) := by
  have hcall := misreadCall_of hn (by rw [hshape]; simpa [Node.isOneOf] using hkind)
  rw [hshape] at haccesses
  rw [hshape, misreadCall_object, haccesses, Bool.true_and] at hcall
  exact (Bool.or_eq_false_iff.mp hcall).1

/-- Without an operator for it, a power is a call with two arguments. -/
theorem parses_powerCall {isBody : String → Prop} {x y : String} {i i' o o' : Bool}
    (hx : Parses isBody (.expression 2 i o) x) (hy : Parses isBody (.expression 2 i' o') y) :
    Parses isBody (.expression 18 false false) ("Math.pow(" ++ x ++ ", " ++ y ++ ")") := by
  have hmath : Parses isBody .primary "Math" := .name (by decide +kernel)
  have hpow : Ecma.isName "pow" = true := by decide
  have hargs : ∀ s ∈ [x, y], Parses isBody .element s := by
    simpa using And.intro (Parses.plain hx) (Parses.plain hy)
  have hcall := hmath.methodCall (by decide) hpow rfl hargs
  have htext : "Math.pow(" ++ x ++ ", " ++ y ++ ")" =
      "Math" ++ ("." ++ "pow" ++ "(") ++ Text.joined ", " [x, y] ++ ")" := by
    apply String.toList_injective
    simp [Text.joined]
  rwa [htext]

/-- An operator with two operands. The power is the call of a function where there is no operator
for it. -/
theorem fits_binary (hemit : Reader isBody emit) {left right : Node} {strength : Nat}
    {location : Option Location}
    (hshape : n = .mk .send [.node left, .sym method, .node right] location)
    (hn : isMisread env s n = false) (hstrength : Precedence.ofOperator? method = some strength)
    (h : Returns (binary emit left method strength right) env s text t) :
    Fits isBody env n text := by
  have hname := not_isIdentifier_of_ofOperator? hstrength
  have harguments : hasArguments n = false := hshape ▸ hasArguments_of_not_isIdentifier hname
  have hfirst : n.nodeAt? 0 = some left := by rw [hshape]; rfl
  have hsecond : n.nodeAt? 2 = some right := by rw [hshape]; rfl
  have hleft := not_blockPass hn harguments hfirst
  have hright := not_blockPass hn harguments hsecond
  have hleads : leads env.options.level n = sendLeads env.options.level method := by
    rw [hshape]; rfl
  have hlevel := ofNode_unaryArgumentSend env.options.level left right method location
  rw [← hshape] at hlevel
  rcases mem_leftOperators hstrength with rfl | hop
  · cases hstrength
    have hchain : isMemberChain env.options.level env.bodies n = false := by
      rw [hshape]
      exact isMemberChain_operator hname (by decide) fun h => absurd h (by decide)
    simp only [binary, beq_self_eq_true, if_true, returns_bind, returns_level] at h
    obtain ⟨_, _, ⟨rfl, rfl⟩, h⟩ := h
    split at h
    · rename_i hmodern
      simp only [returns_bind, returns_pure] at h
      obtain ⟨x, _, hx, y, _, hy, rfl, -⟩ := h
      have hx := parses_operand hemit (.inl hleft) (by decide) hx
      have hy := parses_operand hemit (.inl hright) (by decide) hy
      refine .operator (.power hx hy) hchain (by rw [hshape]; rfl) (by rw [hshape]; rfl) ?_ ?_
      · simp [hlevel, hmodern, Precedence.ofOperator?, Precedence.exponent]
      · exact opens_of_leads hfirst (hleads.trans (by simp [sendLeads, hmodern]))
    · simp only [returns_bind, returns_pure] at h
      obtain ⟨x, _, hx, y, _, hy, rfl, -⟩ := h
      exact .call (parses_powerCall (parses_value hemit hx) (parses_value hemit hy)) hchain
        (absurd · Bool.false_ne_true)
  · obtain ⟨l, hl, hrange, ⟨hpower, hindex, hnew⟩, htext, hgrammar⟩ :=
      leftOperators_spec hop env.options.comparison
    obtain rfl : l = strength := Option.some.inj (hl.symm.trans hstrength)
    simp only [binary, beq_iff_eq, hpower, if_false, returns_bind, returns_read, returns_pure] at h
    obtain ⟨x, _, hx, _, _, ⟨rfl, rfl⟩, y, _, hy, rfl, -⟩ := h
    rw [htext]
    have hparses := parses_binary hemit hgrammar
      (by unfold Precedence.call; omega) hleft hright hx hy
    refine .operator hparses ?_ (by rw [hshape]; rfl) (by rw [hshape]; rfl) ?_ ?_
    · rw [hshape]
      exact isMemberChain_operator hname hnew (fun h => absurd h hindex)
    · simp [hlevel, hpower, hl]
    · exact opens_of_leads hfirst (hleads.trans (sendLeads_of_ofOperator? hl hpower))

/-- The methods of which the calls do not begin with a member of the receiver. -/
theorem accesses_of (hoperator : Precedence.ofOperator? method = none)
    (hspecial : method ∉ ["new", "!", "-@", "+@", "~"]) : accesses n method = true := by
  rw [accesses, hoperator, ← List.contains_iff_mem, Bool.not_eq_true] at *
  rw [hspecial]
  simp

theorem accesses_of_isIdentifier (hname : isIdentifier method = true) (hnew : method ≠ "new") :
    accesses n method = true := by
  refine accesses_of (ofOperator?_of_isIdentifier hname) fun hmem => ?_
  simp only [List.mem_cons, List.not_mem_nil, or_false] at hmem
  rcases hmem with rfl | rfl | rfl | rfl | rfl <;>
    first | exact hnew rfl | exact absurd hname (by decide)

/-- A method that is neither an operator nor a constructor is a member of its receiver. -/
theorem leads_of_accesses {level : Level} {receiving : Node} {rest : List Child}
    {location : Option Location}
    (h : accesses (.mk .send (.node receiving :: .sym method :: rest) location) method = true) :
    leads level (.mk .send (.node receiving :: .sym method :: rest) location) =
      some Precedence.call := by
  have hspecial : ["new", "!", "-@", "+@", "~"].contains method = false ∧
      (Precedence.ofOperator? method).isNone = true := by
    simpa [accesses, Node.is] using h
  have hoperator := Option.isNone_iff_eq_none.mp hspecial.2
  have hpower : method ≠ "**" := by
    rintro rfl
    cases hoperator
  change sendLeads level method = _
  rw [sendLeads, hspecial.1, if_neg Bool.false_ne_true, if_neg hpower, hoperator]
  rfl

/-- The call of a method with the name of a property, or the reading of that property. -/
theorem fits_methodSend (hemit : Reader isBody emit) {receiving : Node} {location : Option Location}
    (hshape : n = .mk .send (.node receiving :: .sym method :: args.map .node) location)
    (hn : isMisread env s n = false) (hnew : method ≠ "new")
    (h : Returns (plainCall emit n (some receiving) method args n.isMethod) env s text t) :
    Fits isBody env n text := by
  have hname := isIdentifier_of_returns_plainCall h
  have haccesses : accesses n method = true := accesses_of_isIdentifier hname hnew
  have hobject := isCallable_of_accesses hn (by decide) hshape haccesses
  refine fits_plainCall hemit hobject (by rw [hshape]; rfl) (fun _ => ?_) (fun hchain => ?_) h
  · rw [hshape] at haccesses ⊢
    exact leads_of_accesses haccesses
  · have hindex : (method == "[]") = false := by
      rw [beq_eq_false_iff_ne]
      rintro rfl
      cases hname
    rw [hshape, isMemberChain_objectSend, if_neg hnew, hname, hindex, ← hshape] at hchain
    simpa [and_comm] using hchain

/-- A call with one argument is an operator, an element, an assignment, or the call of a method. -/
theorem fits_unaryArgumentSend (hemit : Reader isBody emit) {receiving arg : Node}
    {location : Option Location}
    (hshape : n = .mk .send [.node receiving, .sym method, .node arg] location)
    (hn : isMisread env s n = false) (hnew : method ≠ "new")
    (h : Returns (unaryArgumentSend emit n receiving method arg) env s text t) :
    Fits isBody env n text := by
  have hnode : n.nodeAt? 0 = some receiving := by rw [hshape]; rfl
  by_cases hindex : method = "[]"
  · subst hindex
    have haccesses : accesses n "[]" = true := accesses_of rfl (by decide)
    obtain ⟨l, hl, hmember, hparses⟩ := parses_element hemit
      (isCallable_of_accesses hn (by decide) hshape haccesses) h
    refine .member hparses hl (fun hchain => hmember ?_) (opens_of_leads hnode ?_)
    · rw [hshape, isMemberChain_objectSend] at hchain
      simpa using hchain
    · rw [hshape] at haccesses ⊢
      exact leads_of_accesses haccesses
  · simp only [unaryArgumentSend, beq_iff_eq, hindex, if_false] at h
    split at h
    · exact fits_binary hemit hshape hn ‹_› h
    · rename_i property hoperator hsetter
      simp only [returns_bind, returns_pure] at h
      obtain ⟨objectText, _, hreceiver, y, _, hy, rfl, -⟩ := h
      have hproperty : isIdentifier property = true := (Option.filter_eq_some_iff.mp hsetter).2
      have hspecial : method ∉ ["new", "!", "-@", "+@", "~"] := by
        have hnone : ∀ name ∈ ["new", "!", "-@", "+@", "~"], setterName? name = none := by decide
        intro hmem
        rw [hnone method hmem] at hsetter
        cases hsetter
      have hname : isIdentifier method = false := by
        rw [Bool.eq_false_iff]
        intro hname
        rw [setterName?_of_isIdentifier hname] at hsetter
        cases hsetter
      have haccesses : accesses n method = true := accesses_of hoperator hspecial
      have hobject := isCallable_of_accesses hn (by decide) hshape haccesses
      obtain ⟨l, hl, -, hparses⟩ := parses_receiver hemit hobject hreceiver
      have htarget : Parses isBody (.expression 17 _ _) (objectText ++ "." ++ property) :=
        (Parses.member hl hparses (Ecma.isName_of_isIdentifier hproperty)).loosen
          (Nat.le_trans (by decide) hl.1) id id
      have hassign := htarget.assignment (parses_value hemit hy)
      rw [hshape] at haccesses hnode ⊢
      refine .operator hassign ?_ rfl rfl ?_ (opens_of_leads hnode (leads_of_accesses haccesses))
      · exact isMemberChain_operator hname hnew fun h => absurd h hindex
      · have hpower : method ≠ "**" := by
          rintro rfl
          cases hoperator
        simp [ofNode_unaryArgumentSend, hpower, hoperator, hsetter, Precedence.assign]
    · have hshape : n = .mk .send (.node receiving :: .sym method :: [arg].map .node)
          location := hshape
      exact fits_methodSend hemit hshape hn hnew h

/-- The assignment to an element of an object. -/
theorem fits_elementWrite (hemit : Reader isBody emit) {receiving index value : Node}
    {location : Option Location} {target y : String} {u v : Scope}
    (hshape : n = .mk .send [.node receiving, .sym "[]=", .node index, .node value] location)
    (hn : isMisread env s n = false)
    (htarget : Returns (element emit receiving index) env s target t)
    (hy : Returns (operand emit value Precedence.assign) env u y v) :
    Fits isBody env n (target ++ " = " ++ y) := by
  have haccesses : accesses n "[]=" = true := accesses_of rfl (by decide)
  have hobject := isCallable_of_accesses hn (by decide) hshape haccesses
  obtain ⟨l, hl, -, htarget⟩ := parses_element hemit hobject htarget
  have htarget : Parses isBody (.expression 17 _ _) target :=
    htarget.loosen (Nat.le_trans (by decide) hl.1) id id
  have hassign := htarget.assignment (parses_value hemit hy)
  rw [hshape] at haccesses ⊢
  refine .operator hassign ?_ rfl rfl (Nat.le_refl _)
    (opens_of_leads rfl (leads_of_accesses haccesses))
  exact isMemberChain_operator (by decide) (by decide) fun h => absurd h (by decide)

/-- Calls with a receiver. -/
theorem fits_objectSend (hemit : Reader isBody emit) {receiving : Node} {location : Option Location}
    (hshape : n = .mk .send (.node receiving :: .sym method :: args.map .node) location)
    (hn : isMisread env s n = false)
    (h : Returns (objectSend emit n receiving method args) env s text t) :
    Fits isBody env n text := by
  have hblock : receiving.is .blockPass = false :=
    receiver_not_blockPass hn (by rw [hshape]; rfl) (by rw [hshape]; rfl)
  revert h
  fun_cases objectSend emit n receiving method args
  all_goals intro h
  case case1 => exact fits_construction hemit hshape hn h
  case case2 =>
      simp only [returns_bind, returns_pure] at h
      obtain ⟨x, _, hx, rfl, -⟩ := h
      have hx := parses_operand hemit (.inl hblock) (by decide) hx
      rw [hshape]
      exact fits_prefix (by decide) (.unary (by decide) hx)
  case case3 | case4 | case5 =>
      simp only [returns_bind, returns_pure] at h
      obtain ⟨x, _, hx, rfl, -⟩ := h
      have hx := parses_operand hemit (.inl hblock) (by decide) hx
      rw [hshape]
      exact fits_prefix (by decide) (.sign (by decide) hx)
  case case6 =>
      simp only [returns_bind, returns_pure] at h
      obtain ⟨target, _, htarget, y, _, hy, rfl, -⟩ := h
      exact fits_elementWrite hemit hshape hn htarget hy
  case case7 hnew => exact fits_unaryArgumentSend hemit hshape hn hnew h
  case case8 hnew _ _ _ _ _ _ => exact fits_methodSend hemit hshape hn hnew h

/-! ## Calls of all kinds -/

theorem exists_children_of_symAt? (h : n.symAt? 1 = some method) :
    ∃ first rest, n.children = first :: .sym method :: rest := by
  obtain ⟨kind, children, location⟩ := n
  cases children with
  | nil => cases h
  | cons first children =>
      cases children with
      | nil => cases h
      | cons second rest =>
          cases second <;> first | (cases h; exact ⟨first, rest, rfl⟩) | cases h

/-- A call has an optional receiver, a name and arguments. -/
theorem exists_shape_of_returns_send (h : Returns (send emit n) env s text t) :
    ∃ (object : Option Node) (method : String) (args : List Node),
      n = .mk n.kind (.ofNode? object :: .sym method :: args.map .node) n.location ∧
      (n.kind = .csend → Returns (safeCall emit n object method args) env s text t) ∧
      (n.kind = .attr →
        args = [] ∧ Returns (plainCall emit n object method args false) env s text t) ∧
      (n.kind = .call → Returns (plainCall emit n object method args true) env s text t) := by
  simp only [send, returns_bind, returns_symChild, returns_allNodes] at h
  obtain ⟨object, _, hobject, method, _, ⟨hmethod, rfl⟩, args, _, ⟨hargs, rfl⟩, h⟩ := h
  obtain ⟨hchild, rfl⟩ := returns_optionalChild.mp hobject
  refine ⟨object, method, args, ?_, ?_, ?_, ?_⟩
  · obtain ⟨first, rest, hchildren⟩ := exists_children_of_symAt? hmethod
    obtain ⟨kind, children, location⟩ := n
    cases hchildren
    obtain rfl : rest = args.map .node := hargs
    cases first with
    | node receiving =>
        obtain ⟨_, ⟨⟩, rfl⟩ := hchild
        rfl
    | nil =>
        obtain rfl : object = none := hchild
        rfl
    | sym | str | int | float => obtain ⟨_, ⟨⟩, -⟩ := hchild
  · intro hkind
    simpa only [hkind] using h
  · intro hkind
    simp only [hkind] at h
    cases args with
    | nil => exact ⟨rfl, h⟩
    | cons => simp at h
  · intro hkind
    simpa only [hkind] using h

theorem misreadCall_bare (rest : List Child) (location : Option Location) :
    misreadCall env (.mk .send (.nil :: .sym method :: rest) location) =
      if (Node.mk .send (.nil :: .sym method :: rest) location).size == 3 &&
          ["async", "await", "typeof"].contains method then
        method == "async" && ((Node.mk .send (.nil :: .sym method :: rest) location).nodeAt? 2).any
          (misreadAsync env.options.level)
      else !isReadable method := by
  unfold misreadCall
  rfl

/-- A call without a receiver that is not read is made of members only if it defines a function. -/
theorem isMemberChain_bareSend {rest : List Child} {location : Option Location} {l : Nat}
    (hlevel : Precedence.ofSend env.options.level
      (.mk .send (.nil :: .sym method :: rest) location) = l)
    (hcalled : (rest.isEmpty &&
      !(Node.mk .send (.nil :: .sym method :: rest) location).isMethod) = false)
    (hl : ¬Precedence.primary ≤ l) :
    isMemberChain env.options.level env.bodies (.mk .send (.nil :: .sym method :: rest) location) =
      false := by
  rw [isMemberChain, hlevel, hcalled, decide_eq_false hl]
  · rfl
  · exact fun _ h => Child.noConfusion h

theorem ofSend_bareCall (level : Level) {location : Option Location}
    (hplain : ¬(((Node.mk .send (.nil :: .sym method :: args.map .node) location).size == 3 &&
      ["async", "await", "typeof"].contains method) = true)) :
    Precedence.ofSend level (.mk .send (.nil :: .sym method :: args.map .node) location) =
      Precedence.call := by
  rcases args with _ | ⟨first, _ | ⟨second, rest⟩⟩
  · rfl
  · have hnamed : ¬(method = "async" ∨ method = "await" ∨ method = "typeof") := by
      simpa [Node.size] using hplain
    change (if method = "await" ∨ method = "typeof" then Precedence.unary
      else if method = "async" then if first.is .block then Precedence.ofBlock level first
        else Precedence.primary
      else Precedence.call) = _
    rw [if_neg fun h => hnamed (.inr h), if_neg fun h => hnamed (.inl h)]
  · rfl

/-- `async` before a function keeps its strength. -/
theorem fits_asynchronous (hemit : Reader isBody emit) {value : Node} {location : Option Location}
    (hshape : n = .mk .send [.nil, .sym "async", .node value] location)
    (hn : isMisread env s n = false)
    (hbody : HasBody isBody env s (functionOf? env.options.level n))
    (h : Returns (asynchronous emit n value) env s text t) : Fits isBody env n text := by
  have hvalue : misreadAsync env.options.level value = false := by
    have hcall := misreadCall_of hn (by rw [hshape]; rfl)
    rw [hshape, misreadCall_bare] at hcall
    exact hcall
  have hown : HasBody isBody env s (ownFunction? env.options.level value) := by
    rw [hshape] at hbody
    exact hbody
  by_cases hasync : env.options.level.hasAsync = true
  · simp only [asynchronous, returns_bind, returns_level] at h
    obtain ⟨_, _, ⟨rfl, rfl⟩, h⟩ := h
    rw [if_pos hasync] at h
    split at h
    · rename_i hdefinition
      have hkind : value.kind = .methodDef := by
        have hkinds : value.kind = .methodDef ∨ value.kind = .singletonDef := by
          simpa [Node.isOneOf] using hdefinition
        refine hkinds.resolve_right fun hsingleton => ?_
        rw [misreadAsync, hsingleton] at hvalue
        cases hvalue
      have hmethod : misreadMethod value = false := by
        rwa [misreadAsync, hkind] at hvalue
      exact .primary (parses_methodDef hemit hkind hmethod hown h)
    · split at h
      · rename_i hlambda
        rw [Bool.and_eq_true] at hlambda
        have hkind : value.kind = .block := beq_iff_eq.mp hlambda.1
        have hmisread : misreadLambda env.options.level value = false := by
          rwa [misreadAsync, hkind] at hvalue
        have hmodern : env.options.level.isBlockScoped = true := by
          revert hasync
          cases env.options.level <;> decide
        simp only [returns_bind, returns_pure] at h
        obtain ⟨arrowText, _, harrow, rfl, -⟩ := h
        have hparses := parses_lambda hemit hkind hlambda.2 harrow hmisread hown
        rw [if_pos hmodern] at hparses
        have hlevel : Precedence.ofSend env.options.level n = Precedence.assign := by
          rw [hshape]
          change (if value.is .block then Precedence.ofBlock env.options.level value
            else Precedence.primary) = _
          rw [if_pos hlambda.1, Precedence.ofBlock, if_pos hlambda.2, if_pos hmodern]
        have hchain : isMemberChain env.options.level env.bodies n = false := by
          rw [hshape] at hlevel ⊢
          exact isMemberChain_bareSend hlevel rfl (by decide)
        rw [hshape] at hlevel hchain ⊢
        exact .operator (.asyncArrow hparses) hchain rfl rfl (Nat.le_of_eq hlevel)
          (absurd · Bool.false_ne_true)
      · simp at h
  · simp [asynchronous, hasync] at h

/-- An operator with a name before its operand. -/
theorem fits_namedPrefix (hemit : Reader isBody emit) {value : Node} {location : Option Location}
    {op x : String}
    {u : Scope} (hmethod : method ∈ ["await", "typeof"]) (hop : op ∈ ["await ", "typeof "])
    (hshape : n = .mk .send [.nil, .sym method, .node value] location)
    (hn : isMisread env s n = false)
    (hx : Returns (operand emit value Precedence.unary) env u x t) :
    Fits isBody env n (op ++ x) := by
  have hvalue : n.nodeAt? 2 = some value := by rw [hshape]; rfl
  have harguments : hasArguments n = false := by
    simp only [List.mem_cons, List.not_mem_nil, or_false] at hmethod
    rw [hshape]
    rcases hmethod with rfl | rfl <;> rfl
  have hx := parses_operand hemit (.inl (not_blockPass hn harguments hvalue)) (by decide) hx
  have hlevel : Precedence.ofSend env.options.level n = Precedence.unary := by
    simp only [List.mem_cons, List.not_mem_nil, or_false] at hmethod
    rw [hshape]
    rcases hmethod with rfl | rfl <;> rfl
  have hchain : isMemberChain env.options.level env.bodies n = false := by
    rw [hshape] at hlevel ⊢
    exact isMemberChain_bareSend hlevel rfl (by decide)
  rw [hshape] at hlevel hchain ⊢
  exact .operator (.unary (List.mem_cons_of_mem _ hop) hx) hchain rfl rfl (Nat.le_of_eq hlevel)
    (absurd · Bool.false_ne_true)

/-- Calls without a receiver. -/
theorem fits_bareSend (hemit : Reader isBody emit) {location : Option Location}
    (hposition : env.position = .expression)
    (hshape : n = .mk .send (.nil :: .sym method :: args.map .node) location)
    (hn : isMisread env s n = false)
    (hbody : HasBody isBody env s (functionOf? env.options.level n))
    (h : Returns (bareSend emit n method args) env s text t) : Fits isBody env n text := by
  revert h
  fun_cases bareSend emit n method args
  all_goals intro h
  case case1 => exact fits_asynchronous hemit hshape hn hbody h
  case case2 =>
      by_cases hasync : env.options.level.hasAsync = true
      · simp only [await, returns_bind, returns_level] at h
        obtain ⟨_, _, ⟨rfl, rfl⟩, h⟩ := h
        rw [if_pos hasync] at h
        simp only [returns_bind, returns_pure] at h
        obtain ⟨x, _, hx, rfl, -⟩ := h
        exact fits_namedPrefix hemit (by decide) (by decide) hshape hn hx
      · simp [await, hasync] at h
  case case3 =>
      simp only [returns_bind, returns_pure] at h
      obtain ⟨x, _, hx, rfl, -⟩ := h
      exact fits_namedPrefix hemit (by decide) (by decide) hshape hn hx
  case case4 =>
      simp [raise, hposition] at h
  case case5 hraise hasync hawait htypeof =>
      have hcall := misreadCall_of hn (by rw [hshape]; rfl)
      have hplain : ¬((n.size == 3 && ["async", "await", "typeof"].contains method) = true) := by
        intro hspecial
        rw [Bool.and_eq_true, List.contains_iff_mem, hshape] at hspecial
        obtain ⟨hsize, hmem⟩ := hspecial
        obtain ⟨value, rfl⟩ : ∃ value, args = [value] := by
          simpa [Node.size, List.length_eq_one_iff] using hsize
        simp only [List.mem_cons, List.not_mem_nil, or_false] at hmem
        rcases hmem with rfl | rfl | rfl
        · exact hasync value rfl rfl
        · exact hawait value rfl rfl
        · exact htypeof value rfl rfl
      rw [hshape, misreadCall_bare, ← hshape, if_neg hplain, Bool.not_eq_false'] at hcall
      have hcallable : IsCallable env.options.level method none := hcall
      refine fits_plainCall hemit hcallable ?_ (absurd · Bool.false_ne_true) (fun hchain => ?_) h
      · rw [hshape]
        rfl
      · rw [hshape] at hplain
        have hlevel := ofSend_bareCall env.options.level hplain
        cases hread : n.isMethod || !args.isEmpty with
        | false => exact ⟨rfl, rfl⟩
        | true =>
            have hcalled : ((args.map Child.node).isEmpty && !n.isMethod) = false := by
              cases args <;> simp_all
            rw [hshape] at hchain hcalled
            rw [isMemberChain_bareSend hlevel hcalled (by decide)] at hchain
            cases hchain

theorem fits_send (hemit : Reader isBody emit) (hposition : env.position = .expression)
    (hkind : n.kind = .send) (hn : isMisread env s n = false)
    (hbody : HasBody isBody env s (functionOf? env.options.level n))
    (h : Returns (send emit n) env s text t) : Fits isBody env n text := by
  obtain ⟨object, method, args, hshape, -⟩ := exists_shape_of_returns_send h
  rw [hkind] at hshape
  cases object with
  | none => exact fits_bareSend hemit hposition hshape hn hbody (returns_bareSend args hshape h)
  | some receiving => exact fits_objectSend hemit hshape hn (returns_objectSend args hshape h)

/-! ## Calls with a block -/

/-- A block is the last argument, so it changes neither how the call begins nor what it is. -/
theorem isInteger_passing {call args : Node} {body : Option Node}
    (h : isInteger (passing call args body) = true) : isInteger call = true := by
  obtain ⟨kind, children, location⟩ := call
  cases children with
  | nil => cases kind <;> exact h
  | cons c rest =>
      cases rest <;> cases kind <;> first | exact h | (cases c <;> first | exact h | cases h)

theorem opens_passing {level : Level} {call args : Node} {body : Option Node}
    (h : opens level (passing call args body) = true) : opens level call = true := by
  obtain ⟨kind, children, location⟩ := call
  cases children with
  | nil => cases kind <;> first | exact h | cases (Bool.and_eq_true_iff.mp h).2
  | cons c rest =>
      cases rest <;> cases c <;> cases kind
      all_goals first | exact h | cases h | skip
      -- What remains are assignments with an operator, which begin with their target.
      all_goals
        change opens level (.mk _ (_ :: _) location) = true at h
        unfold opens at h ⊢
        exact h

/-- A call with a block binds like a call. -/
theorem fits_block (hemit : Reader isBody emit) (hposition : env.position = .expression)
    (hkind : n.kind = .block) (hn : isMisread env s n = false)
    (hbody : HasBody isBody env s (functionOf? env.options.level n))
    (h : Returns (block emit n) env s text t) : Fits isBody env n text := by
  have hmisread : (if isLambdaBlock n then misreadLambda env.options.level n
      else misreadBlock env.options.level n) = false := by
    simp only [isMisread, hkind, Bool.or_eq_false_iff] at hn
    exact hn.2
  by_cases hlambda : isLambdaBlock n = true
  · rw [if_pos hlambda] at hmisread
    refine fits_lambda hemit hkind hlambda hmisread ?_ h
    rwa [functionOf?, hkind] at hbody
  · rw [if_neg hlambda] at hmisread
    simp only [block, returns_bind, returns_nodeChild] at h
    obtain ⟨call, _, ⟨hcall, rfl⟩, args, _, ⟨hargs, rfl⟩, body, _, hchild, h⟩ := h
    obtain rfl := eq_nodeAt?_of_returns_optionalChild hchild
    rw [if_neg hlambda] at h
    split at h
    · simp at h
    · simp only [returns_bind, returns_read] at h
      obtain ⟨_, _, ⟨rfl, rfl⟩, h⟩ := h
      rw [hposition] at h
      have hfits : Fits isBody env (passing call args (n.nodeAt? 2)) text := hemit.fits h
      have hdeclared : Precedence.call ≤
          Precedence.ofNode env.options.level (passing call args (n.nodeAt? 2)) := by
        simpa [misreadBlock, hcall, hargs] using hmisread
      have hcallee : call.is .blockPass = false :=
        receiver_not_blockPass hn (by simp [Node.is, hkind]) hcall
      have hpassing : (passing call args (n.nodeAt? 2)).is .blockPass = false := hcallee
      obtain ⟨rest, hchildren⟩ := exists_children_of_nodeAt? hcall
      obtain ⟨kind, children, location⟩ := n
      cases hkind
      cases hchildren
      refine .of hfits (Nat.le_trans ?_ (ofNode_le_strength hpassing)) isInteger_passing
        opens_passing
      have hchain : isMemberChain env.options.level env.bodies
          (.mk .block (.node call :: rest) location) = false := by
        simp [isMemberChain, hlambda]
      rw [Nat.min_eq_right hdeclared, strength, hchain]
      exact Nat.min_le_right _ _

/-! ## The method of the parent class -/

end Rules

end RubyScript.Emit
