import RubyScript.Proofs.Emit.Writing.Program
import RubyScript.Proofs.Filter.Idempotence
import RubyScript.Proofs.Filter.Unplaced

/-!
# Conversion of unplaced trees

Two trees that differ in lines and columns only are converted alike. A pass over the unplaced tree
registers the same tokens and gives the unplaced result, and the generator writes the same text for
both.
-/

namespace RubyScript

def unplacedResult {α : Type} (e : α → α) (result : Except ConvertError α) :
    Except ConvertError α :=
  (result.map e).mapError ConvertError.unplaced

namespace Filter

/-! ## Passes -/

/-- `y` registers the tokens that `x` registers and has the unplaced result. -/
def Unplaces {α : Type} (e : α → α) (x y : FilterM α) : Prop :=
  ∀ tokens, outcome y tokens = (unplacedResult e (outcome x tokens).1, (outcome x tokens).2)

section Rules

variable {α β : Type} {e : α → α} {d : β → β} {x y : FilterM α}

theorem unplaces_pure (a : α) : Unplaces e (pure a) (pure (e a)) := fun _ => rfl

theorem unplaces_bind {f g : α → FilterM β} (hx : Unplaces e x y)
    (hf : ∀ a, Unplaces d (f a) (g (e a))) : Unplaces d (x >>= f) (y >>= g) := by
  intro tokens
  rw [outcome_bind, outcome_bind, hx tokens]
  rcases outcome x tokens with ⟨_ | a, tokens'⟩
  · rfl
  · exact hf a tokens'

theorem unplaces_map {f : α → β} (hx : Unplaces e x y) (hf : ∀ a, f (e a) = d (f a)) :
    Unplaces d (f <$> x) (f <$> y) := by
  rw [map_eq_pure_bind, map_eq_pure_bind]
  refine unplaces_bind hx fun a => ?_
  rw [hf]
  exact unplaces_pure (f a)

theorem unplaces_mapM {f : α → FilterM α} (hf : ∀ a, Unplaces e (f a) (f (e a))) (as : List α) :
    Unplaces (List.map e) (as.mapM f) ((as.map e).mapM f) := by
  induction as with
  | nil => exact unplaces_pure []
  | cons a as ih =>
      rw [List.map_cons, List.mapM_cons, List.mapM_cons]
      exact unplaces_bind (hf a) fun b => unplaces_bind ih fun bs => unplaces_pure (b :: bs)

theorem unplaces_require (token : Option String) :
    Unplaces id (token.forM FilterM.require) (token.forM FilterM.require) := by
  cases token with
  | none => exact unplaces_pure ()
  | some token => exact fun _ => rfl

end Rules

section Steps

variable {stack : List Filter} {cx : Context}
  (hprocess : ∀ n, Unplaces Node.unplaced (cx.process n) (cx.process n.unplaced))

include hprocess

theorem unplaces_processChild (c : Child) :
    Unplaces Child.unplaced (Collections.processChild cx c)
      (Collections.processChild cx c.unplaced) := by
  cases c with
  | node n =>
      rw [Child.unplaced_node]
      exact unplaces_map (hprocess n) fun m => (Child.unplaced_node m).symm
  | nil => exact unplaces_pure (e := Child.unplaced) .nil
  | sym name => exact unplaces_pure (e := Child.unplaced) (.sym name)
  | str s => exact unplaces_pure (e := Child.unplaced) (.str s)
  | int i => exact unplaces_pure (e := Child.unplaced) (.int i)
  | float x => exact unplaces_pure (e := Child.unplaced) (.float x)

theorem unplaces_mapNodesM (n : Node) :
    Unplaces Node.unplaced (n.mapNodesM cx.process) (n.unplaced.mapNodesM cx.process) := by
  rw [mapNodesM_eq, mapNodesM_eq, Node.children_unplaced]
  refine unplaces_bind (unplaces_mapM (unplaces_processChild hprocess) n.children)
    fun children => ?_
  rw [Node.withChildren_unplaced]
  exact unplaces_pure _

theorem unplaces_processLoop (children : List Child) :
    Unplaces (List.map Child.unplaced) (Collections.processLoop cx children)
      (Collections.processLoop cx (children.map Child.unplaced)) := by
  have hplain := unplaces_mapM (unplaces_processChild hprocess) children
  rcases children with _ | ⟨counter, _ | ⟨second, rest⟩⟩
  · exact hplain
  · exact hplain
  · cases second with
    | node bounds =>
        rw [List.map_cons, List.map_cons, Child.unplaced_node]
        refine unplaces_bind (unplaces_processChild hprocess counter) fun counter' => ?_
        refine unplaces_bind (unplaces_mapNodesM hprocess bounds) fun bounds' => ?_
        refine unplaces_bind (unplaces_mapM (unplaces_processChild hprocess) rest) fun rest' => ?_
        rw [← Child.unplaced_node]
        exact unplaces_pure (counter' :: .node bounds' :: rest')
    | _ => exact hplain

omit hprocess in
theorem replacementOf_unplaced (exclude : List String) (n : Node) :
    replacementOf stack exclude n.unplaced = (replacementOf stack exclude n).map Node.unplaced := by
  have hsome : (Host.change n).unplaced.replacement.isSome = (Host.change n).replacement.isSome :=
    Option.isSome_map
  unfold replacementOf
  rw [Host.change_unplaced, hsome, Collections.replacement?_unplaced]
  split
  · rfl
  · split
    · rfl
    · rfl

theorem unplaces_proceed (n : Node) :
    Unplaces Node.unplaced (proceed stack cx n) (proceed stack cx n.unplaced) := by
  have hloop : keepsLoop stack n.unplaced = keepsLoop stack n := by
    rw [keepsLoop, Collections.isRangeLoop_unplaced, keepsLoop]
  unfold proceed
  rw [hloop, replacementOf_unplaced, Node.children_unplaced]
  split
  · refine unplaces_bind (unplaces_processLoop hprocess n.children) fun children => ?_
    rw [Node.withChildren_unplaced]
    exact unplaces_pure _
  · cases replacementOf stack (Collections.excluded cx.options) n with
    | none => exact unplaces_mapNodesM hprocess n
    | some replacement => exact hprocess replacement

theorem unplaces_step (n : Node) :
    Unplaces Node.unplaced (step stack cx n) (step stack cx n.unplaced) := by
  have htoken : tokenOf stack n.unplaced = tokenOf stack n := by
    rw [tokenOf, Host.change_unplaced, tokenOf]
    rfl
  unfold step
  rw [htoken]
  exact unplaces_bind (unplaces_require _) fun _ => unplaces_proceed hprocess n

end Steps

theorem unplaces_process {stack : List Filter} (hstack : ∀ f ∈ stack, f ∈ registry)
    (options : Options) (depth : Nat) (n : Node) :
    Unplaces Node.unplaced (process stack options depth n)
      (process stack options depth n.unplaced) := by
  induction depth generalizing n with
  | zero => exact fun _ => rfl
  | succ depth ih =>
      rw [process_succ hstack, process_succ hstack]
      exact unplaces_step ih n

/-! ## Declarations -/

theorem declaration_unplaced {token : String} {d : Node} (h : Host.declaration token = some d) :
    d.unplaced = d := by
  unfold Host.declaration at h
  split at h
  · cases h
    rfl
  · split at h
    · cases h
      rfl
    · split at h
      · cases h
        rfl
      · cases h

theorem declarations_unplaced {stack : List Filter} (hstack : ∀ f ∈ stack, f ∈ registry)
    {tokens seen : List String} {all : List Node}
    (h : declarations tokens stack [] = .ok (all, seen)) : ∀ d ∈ all, d.unplaced = d := by
  rw [declarations_of_registered hstack] at h
  split at h
  · intro d hd
    obtain ⟨token, hdeclaration⟩ := declarationsOf_mem h d hd
    exact declaration_unplaced hdeclaration
  · cases h
    simp

theorem declarationsOf_error {filter : Filter} {tokens listed seen : List String} {e : ConvertError}
    (h : declarationsOf filter tokens listed seen = .error e) :
    ∃ token, e = .unresolvedSetup token := by
  induction listed generalizing seen with
  | nil => cases h
  | cons token listed ih =>
      rw [declarationsOf_cons] at h
      split at h
      · split at h
        · cases h
          exact ⟨token, rfl⟩
        · cases hrest : declarationsOf filter tokens listed (token :: seen) with
          | error e' =>
              rw [hrest] at h
              cases h
              exact ih hrest
          | ok result =>
              rw [hrest] at h
              cases h
      · exact ih h

theorem statements_unplaced (program : Node) :
    statements program.unplaced = (statements program).map Child.unplaced := by
  unfold statements
  rw [Node.is_unplaced, Node.children_unplaced]
  split
  · rfl
  · simp

theorem isStated_unplaced (program d : Node) :
    isStated program.unplaced d = isStated program d := by
  unfold isStated
  rw [statements_unplaced, Child.filterMap_node?_unplaced, List.any_map]
  simp [Function.comp_def, Node.same_unplaced]

theorem placed_unplaced {all : List Node} (h : ∀ d ∈ all, d.unplaced = d) (program : Node) :
    placed all program.unplaced = (placed all program).unplaced := by
  have hstated : isStated program.unplaced = isStated program := funext (isStated_unplaced program)
  unfold placed
  rw [hstated, statements_unplaced]
  split
  · rfl
  · rw [Node.unplaced_new, List.map_append, List.map_map]
    congr 2
    refine List.map_congr_left fun d hd => ?_
    have hfixed := h d (List.mem_filter.mp hd).1
    simp [hfixed]

theorem materialize_unplaced {stack : List Filter} (hstack : ∀ f ∈ stack, f ∈ registry)
    (tokens : List String) (program : Node) :
    materialize stack tokens program.unplaced =
      unplacedResult Node.unplaced (materialize stack tokens program) := by
  rw [materialize_eq, materialize_eq]
  cases hall : declarations tokens stack [] with
  | error e =>
      rw [declarations_of_registered hstack] at hall
      split at hall
      · obtain ⟨token, rfl⟩ := declarationsOf_error hall
        rfl
      · cases hall
  | ok result =>
      obtain ⟨all, seen⟩ := result
      dsimp only
      cases least? (tokens.filter (!seen.contains ·)) with
      | some token => rfl
      | none =>
          exact congrArg Except.ok (placed_unplaced (declarations_unplaced hstack hall) program)

end Filter

namespace Emit

def anyText (options : Options) : Language options where
  isLetter _ := true
  isQuotable _ := true
  allowsEmpty := true
  accepts _ := true
  isTarget _ := true
  part_letter _ := rfl
  minus_letter := rfl
  letter_quotable _ := rfl
  anchor_quotable := rfl
  accepts_append _ _ := rfl
  accepts_fragment _ := rfl
  accepts_inline _ _ := rfl
  accepts_word _ := rfl
  accepts_member _ _ := rfl
  accepts_quoted _ := rfl
  accepts_target _ _ _ _ := rfl

theorem fine_anyText (options : Options) (tree : Node) : (anyText options).Fine tree := by
  refine Free.of (P := fun _ => True) (fun n _ => ?_) (fun _ _ _ _ => trivial) tree trivial
  have hspelled : (anyText options).misspells n = false := by
    refine Alphabet.misspells_eq_false.mpr ⟨fun name _ => ?_, fun s _ => ?_⟩
    · simp [Alphabet.isName, anyText]
    · simp [Alphabet.isText, anyText]
  rw [Language.isFlawed, hspelled]
  simp [anyText]

theorem generate_unplaced (options : Options) (tree : Node) :
    generate options tree.unplaced = unplacedResult id (generate options tree) := by
  rcases Language.generate_unplaced (fine_anyText options tree) with
    ⟨text, htext, hunplaced, -⟩ | ⟨error, herror, hunplaced⟩
  · rw [htext, hunplaced]
    rfl
  · rw [herror, hunplaced]
    rfl

end Emit

namespace Pipeline

open RubyScript.Filter

theorem normalize_unplaced {stack : List Filter} (hstack : ∀ f ∈ stack, f ∈ registry)
    (options : Options) (tree : Node) :
    normalize ⟨stack, options⟩ tree.unplaced =
      unplacedResult Node.unplaced (normalize ⟨stack, options⟩ tree) := by
  rw [normalize_eq, normalize_eq, unplaces_process hstack options maxDepth tree []]
  rcases outcome (process stack options maxDepth tree) [] with ⟨e | program, tokens⟩
  · rfl
  · exact materialize_unplaced hstack tokens program

theorem convert_unplaced {stack : List Filter} (hstack : ∀ f ∈ stack, f ∈ registry)
    (options : Options) (tree : Node) :
    convert ⟨stack, options⟩ tree.unplaced = unplacedResult id (convert ⟨stack, options⟩ tree) := by
  unfold convert
  rw [normalize_unplaced hstack]
  cases normalize ⟨stack, options⟩ tree with
  | error e => rfl
  | ok program => exact Emit.generate_unplaced options program

theorem results_of_unplacedResult_eq {result result' : Except ConvertError String}
    (h : unplacedResult id result = unplacedResult id result') :
    (∃ text, result = .ok text ∧ result' = .ok text) ∨
      ∃ e e', result = .error e ∧ result' = .error e' ∧ e.unplaced = e'.unplaced := by
  cases result with
  | ok text =>
      cases result' with
      | ok text' =>
          cases h
          exact .inl ⟨text, rfl, rfl⟩
      | error e' => cases h
  | error e =>
      cases result' with
      | ok text' => cases h
      | error e' => exact .inr ⟨e, e', rfl, rfl, Except.error.inj h⟩

theorem message_unplaced (e : ConvertError) : e.unplaced.message = e.message := by
  cases e <;> rfl

/-- Trees that differ in lines and columns only become the same text, or fail with errors that
differ in lines and columns only. -/
theorem convert_eq_of_unplaced_eq (stack : List Filter) (hstack : ∀ f ∈ stack, f ∈ registry)
    (options : Options) (tree tree' : Node) (h : tree.unplaced = tree'.unplaced) :
    (∃ text, convert ⟨stack, options⟩ tree = .ok text ∧ convert ⟨stack, options⟩ tree' = .ok text) ∨
    ∃ e e', convert ⟨stack, options⟩ tree = .error e ∧ convert ⟨stack, options⟩ tree' = .error e' ∧
      e.unplaced = e'.unplaced ∧ e.message = e'.message := by
  have hresults : unplacedResult id (convert ⟨stack, options⟩ tree) =
      unplacedResult id (convert ⟨stack, options⟩ tree') := by
    rw [← convert_unplaced hstack, ← convert_unplaced hstack, h]
  rcases results_of_unplacedResult_eq hresults with htext | ⟨e, e', herror, herror', hunplaced⟩
  · exact .inl htext
  · refine .inr ⟨e, e', herror, herror', hunplaced, ?_⟩
    rw [← message_unplaced e, hunplaced, message_unplaced]

/-- Two calls in a line, the first one with parentheses,
`(begin (send (lvar :a) :size) (send (const nil :File) :read (str "b")))`. -/
def callsAt (line : UInt32) : Node :=
  .new .begin [
    .node (.mk .send [.node (.new .lvar [.sym "a"]), .sym "size"] (some ⟨line, 0, true⟩)),
    .node (.mk .send [.node (.new .constant [.nil, .sym "File"]), .sym "read",
      .node (.new .str [.str "b"])] (some ⟨line, 8, false⟩))]

def callsText : String :=
  "const fs = require(\"fs\"); _.size(a); fs.readFileSync(\"b\", \"utf8\")"

theorem convert_callsAt :
    convert ⟨[host, collections], { level := .es2015 }⟩ (callsAt 1) = .ok callsText ∧
      convert ⟨[host, collections], { level := .es2015 }⟩ (callsAt 7) = .ok callsText := by
  have hfirst : convert ⟨[host, collections], { level := .es2015 }⟩ (callsAt 1) =
      .ok callsText := rfl
  rcases convert_eq_of_unplaced_eq [host, collections] (fun _ hf => hf) { level := .es2015 }
    (callsAt 1) (callsAt 7) rfl with ⟨text, htext, htext'⟩ | ⟨e, e', herror, -⟩
  · cases hfirst.symm.trans htext
    exact ⟨hfirst, htext'⟩
  · cases hfirst.symm.trans herror

end Pipeline

end RubyScript
