import RubyScript.Proofs.Filter.Setup

/-!
# Declarations in canonical order

A required token is declared by its *provider*, the first filter of the stack that lists it. The
declarations stand in the order in which the stack lists their tokens, however the tokens were
registered, and a program gets those of them that are no statements of it, so that none is made a
second time. A token without a provider, or whose provider has no declaration for it, is unresolved
and stops the conversion.
-/

namespace RubyScript.Filter

variable {filter : Filter} {stack : List Filter} {tokens seen listed : List String} {token : String}

/-! ## Providers -/

def provider? (stack : List Filter) (token : String) : Option Filter :=
  stack.find? (·.setupTokens.contains token)

def declaration? (stack : List Filter) (token : String) : Option Node :=
  (provider? stack token).bind (·.setupDeclaration token)

/-- No filter lists the token. -/
def Unlisted (stack : List Filter) (token : String) : Prop := ∀ f ∈ stack, token ∉ f.setupTokens

/-- No filter lists the token, or the first one that does has no declaration for it. -/
def Unresolved (stack : List Filter) (token : String) : Prop :=
  Unlisted stack token ∨ ∃ f, provider? stack token = some f ∧ f.setupDeclaration token = none

theorem provider?_eq_none : provider? stack token = none ↔ Unlisted stack token := by
  simp [provider?, Unlisted]

theorem unresolved_iff : Unresolved stack token ↔ declaration? stack token = none := by
  unfold Unresolved declaration?
  rw [← provider?_eq_none]
  cases provider? stack token <;> simp

theorem provider?_cons_of_mem (h : token ∈ filter.setupTokens) :
    provider? (filter :: stack) token = some filter := by
  simp [provider?, h]

theorem provider?_cons_of_not_mem (h : token ∉ filter.setupTokens) :
    provider? (filter :: stack) token = provider? stack token := by
  simp [provider?, h]

/-! ## The required tokens that are still to be declared -/

/-- The required ones among the listed tokens, without those that are declared already. -/
def undeclared (tokens seen listed : List String) : List String :=
  (listed.filter fun token => token ∈ tokens ∧ token ∉ seen).eraseDups

/-- The required tokens in canonical order: in the order of the filters, and then in the order in
which a filter lists them. A token that is listed again stands where it is listed first. -/
def required (stack : List Filter) (tokens : List String) : List String :=
  ((stack.flatMap (·.setupTokens)).filter (· ∈ tokens)).eraseDups

theorem required_eq (stack : List Filter) (tokens : List String) :
    required stack tokens = undeclared tokens [] (stack.flatMap (·.setupTokens)) := by
  simp [required, undeclared]

theorem mem_undeclared :
    token ∈ undeclared tokens seen listed ↔ token ∈ listed ∧ token ∈ tokens ∧ token ∉ seen := by
  simp [undeclared]

theorem mem_required :
    token ∈ required stack tokens ↔ token ∈ tokens ∧ (provider? stack token).isSome = true := by
  rw [required_eq, mem_undeclared, Option.isSome_iff_ne_none, Ne, provider?_eq_none]
  simp [Unlisted, and_comm]

theorem undeclared_cons_of_new (h : token ∈ tokens ∧ token ∉ seen) :
    undeclared tokens seen (token :: listed) =
      token :: undeclared tokens (token :: seen) listed := by
  unfold undeclared
  rw [List.filter_cons_of_pos (by simpa using h), List.eraseDups_cons, List.filter_filter]
  congr 2
  refine List.filter_congr fun t _ => ?_
  by_cases ht : t = token <;> simp [ht]

theorem undeclared_cons_of_old (h : ¬(token ∈ tokens ∧ token ∉ seen)) :
    undeclared tokens seen (token :: listed) = undeclared tokens seen listed := by
  unfold undeclared
  rw [List.filter_cons_of_neg (by simpa using h)]

theorem undeclared_sublist (seen listed : List String) :
    (undeclared tokens seen listed).Sublist listed := by
  induction listed generalizing seen with
  | nil => exact .slnil
  | cons token listed ih =>
      by_cases hnew : token ∈ tokens ∧ token ∉ seen
      · rw [undeclared_cons_of_new hnew]
        exact (ih (token :: seen)).cons_cons token
      · rw [undeclared_cons_of_old hnew]
        exact (ih seen).cons token

/-- Tokens that come first are declared first, and then no more. -/
theorem undeclared_append (first rest : List String) :
    undeclared tokens seen (first ++ rest) = undeclared tokens seen first ++
      undeclared tokens ((undeclared tokens seen first).reverse ++ seen) rest := by
  induction first generalizing seen with
  | nil => rfl
  | cons token first ih =>
      by_cases hnew : token ∈ tokens ∧ token ∉ seen
      · rw [List.cons_append, undeclared_cons_of_new hnew,
          undeclared_cons_of_new hnew, ih]
        simp
      · rw [List.cons_append, undeclared_cons_of_old hnew, undeclared_cons_of_old hnew, ih]

theorem undeclared_congr {tokens' : List String} (h : ∀ t, t ∈ tokens' ↔ t ∈ tokens) :
    undeclared tokens' seen listed = undeclared tokens seen listed := by
  unfold undeclared
  simp only [h]

/-! ## Resolving tokens one after the other -/

/-- The declaration of a token, or the error that there is none. -/
def resolve (declare : String → Option Node) (token : String) : Except ConvertError Node :=
  match declare token with
  | some d => .ok d
  | none => .error (.unresolvedSetup token)

theorem mapM_resolve_congr {declare declare' : String → Option Node} {ts : List String}
    (h : ∀ t ∈ ts, declare t = declare' t) :
    ts.mapM (resolve declare) = ts.mapM (resolve declare') := by
  induction ts with
  | nil => rfl
  | cons t ts ih =>
      have hhead : resolve declare t = resolve declare' t := by
        rw [resolve, resolve, h t List.mem_cons_self]
      have htail := ih fun t' ht' => h t' (List.mem_cons_of_mem t ht')
      rw [List.mapM_cons, List.mapM_cons, hhead, htail]

/-- Either all tokens are resolved, or the first one without a declaration is reported. -/
theorem mapM_resolve_cases (declare : String → Option Node) (ts : List String) :
    ((∀ t ∈ ts, declare t ≠ none) ∧ ts.mapM (resolve declare) = .ok (ts.filterMap declare)) ∨
      ∃ t ∈ ts, declare t = none ∧ ts.mapM (resolve declare) = .error (.unresolvedSetup t) := by
  induction ts with
  | nil => exact .inl ⟨by simp, rfl⟩
  | cons t ts ih =>
      rw [List.mapM_cons]
      cases hd : declare t with
      | none =>
          right
          exact ⟨t, List.mem_cons_self, hd, by simp [resolve, hd, bind, Except.bind]⟩
      | some d =>
          rcases ih with ⟨hall, hok⟩ | ⟨t', ht', hnone, herror⟩
          · left
            rw [hok, List.filterMap_cons_some hd]
            refine ⟨?_, by simp [resolve, hd, bind, Except.bind, pure, Except.pure]⟩
            rw [List.forall_mem_cons]
            exact ⟨by simp [hd], hall⟩
          · right
            refine ⟨t', List.mem_cons_of_mem t ht', hnone, ?_⟩
            rw [herror]
            simp [resolve, hd, bind, Except.bind]

/-! ## Declarations of one filter -/

theorem declarationsOf_cons (filter : Filter) (tokens rest seen : List String) (token : String) :
    declarationsOf filter tokens (token :: rest) seen =
      if token ∈ tokens ∧ token ∉ seen then
        match filter.setupDeclaration token with
        | none => .error (.unresolvedSetup token)
        | some declaration => do
            let (declarations, seen) ← declarationsOf filter tokens rest (token :: seen)
            return (declaration :: declarations, seen)
      else declarationsOf filter tokens rest seen := by
  rw [declarationsOf]
  refine ite_congr (propext ?_) (fun _ => rfl) fun _ => rfl
  simp

/-- A filter declares its undeclared tokens one after the other. -/
theorem declarationsOf_eq (filter : Filter) (tokens listed seen : List String) :
    declarationsOf filter tokens listed seen = do
      let all ← (undeclared tokens seen listed).mapM (resolve filter.setupDeclaration)
      return (all, (undeclared tokens seen listed).reverse ++ seen) := by
  induction listed generalizing seen with
  | nil => rfl
  | cons token listed ih =>
      rw [declarationsOf_cons]
      by_cases hnew : token ∈ tokens ∧ token ∉ seen
      · rw [if_pos hnew, undeclared_cons_of_new hnew, List.mapM_cons, ih, resolve]
        cases filter.setupDeclaration token with
        | none => rfl
        | some d =>
            cases (undeclared tokens (token :: seen) listed).mapM
              (resolve filter.setupDeclaration) <;> simp [bind, Except.bind, pure, Except.pure]
      · rw [if_neg hnew, undeclared_cons_of_old hnew, ih]

/-- The declarations that a filter makes, and the tokens that are declared after it. -/
theorem declarationsOf_ok {seen' : List String} {all : List Node}
    (h : declarationsOf filter tokens listed seen = .ok (all, seen')) :
    all = (undeclared tokens seen listed).filterMap filter.setupDeclaration ∧
      seen' = (undeclared tokens seen listed).reverse ++ seen := by
  rw [declarationsOf_eq] at h
  rcases mapM_resolve_cases filter.setupDeclaration (undeclared tokens seen listed) with
    ⟨_, hok⟩ | ⟨token, _, _, herror⟩
  · rw [hok] at h
    cases h
    exact ⟨rfl, rfl⟩
  · rw [herror] at h
    cases h

/-- After a filter its required tokens are declared. -/
theorem declarationsOf_seen {seen' : List String} {all : List Node}
    (h : declarationsOf filter tokens listed seen = .ok (all, seen')) :
    ∀ token ∈ listed, token ∈ tokens → token ∈ seen' := by
  intro token hmem htoken
  rw [(declarationsOf_ok h).2, List.mem_append, List.mem_reverse, mem_undeclared]
  by_cases hseen : token ∈ seen
  · exact .inr hseen
  · exact .inl ⟨hmem, htoken, hseen⟩

/-- Nothing is declared if every required token of the filter is declared already. -/
theorem declarationsOf_of_seen (h : ∀ token ∈ listed, token ∈ tokens → token ∈ seen) :
    declarationsOf filter tokens listed seen = .ok ([], seen) := by
  have hnone : undeclared tokens seen listed = [] := by
    rw [List.eq_nil_iff_forall_not_mem]
    intro token hmem
    obtain ⟨hlisted, htoken, hnot⟩ := mem_undeclared.mp hmem
    exact hnot (h token hlisted htoken)
  rw [declarationsOf_eq, hnone]
  rfl

theorem declarationsOf_mem {seen' : List String} {all : List Node}
    (h : declarationsOf filter tokens listed seen = .ok (all, seen')) :
    ∀ d ∈ all, ∃ token, filter.setupDeclaration token = some d := by
  intro d hd
  rw [(declarationsOf_ok h).1] at hd
  obtain ⟨token, -, hdeclaration⟩ := List.mem_filterMap.mp hd
  exact ⟨token, hdeclaration⟩

theorem declarationsOf_mem_of_token {seen' : List String} {all : List Node} {d : Node}
    (h : declarationsOf filter tokens listed seen = .ok (all, seen'))
    (hlisted : token ∈ listed) (htoken : token ∈ tokens) (hseen : token ∉ seen)
    (hd : filter.setupDeclaration token = some d) : d ∈ all := by
  rw [(declarationsOf_ok h).1]
  exact List.mem_filterMap.mpr ⟨token, mem_undeclared.mpr ⟨hlisted, htoken, hseen⟩, hd⟩

theorem declarationsOf_sublist {seen' : List String} {all : List Node}
    (h : declarationsOf filter tokens listed seen = .ok (all, seen')) :
    all.Sublist (listed.filterMap filter.setupDeclaration) := by
  rw [(declarationsOf_ok h).1]
  exact (undeclared_sublist seen listed).filterMap _

/-! ## Declarations of a stack -/

/-- A stack declares its undeclared tokens one after the other, each one by its provider. -/
theorem declarations_eq (tokens : List String) (stack : List Filter) (seen : List String) :
    declarations tokens stack seen = do
      let all ← (undeclared tokens seen (stack.flatMap (·.setupTokens))).mapM
        (resolve (declaration? stack))
      return (all, (undeclared tokens seen (stack.flatMap (·.setupTokens))).reverse ++ seen) := by
  induction stack generalizing seen with
  | nil => rfl
  | cons filter stack ih =>
      have hfirst : ∀ t ∈ undeclared tokens seen filter.setupTokens,
          filter.setupDeclaration t = declaration? (filter :: stack) t := by
        intro t ht
        rw [declaration?, provider?_cons_of_mem (mem_undeclared.mp ht).1, Option.bind_some]
      -- What the first filter lists is declared by now, so the rest of the stack provides the rest.
      have hothers : ∀ t ∈ undeclared tokens
          ((undeclared tokens seen filter.setupTokens).reverse ++ seen)
            (stack.flatMap (·.setupTokens)),
          declaration? stack t = declaration? (filter :: stack) t := by
        intro t ht
        obtain ⟨-, htokens, hnot⟩ := mem_undeclared.mp ht
        have hunlisted : t ∉ filter.setupTokens := by
          intro hmem
          apply hnot
          by_cases hseen : t ∈ seen
          · simp [hseen]
          · simp [mem_undeclared, hmem, htokens, hseen]
        rw [declaration?, declaration?, provider?_cons_of_not_mem hunlisted]
      rw [declarations, declarationsOf_eq, List.flatMap_cons, undeclared_append, List.mapM_append,
        mapM_resolve_congr hfirst]
      simp only [ih, mapM_resolve_congr hothers, bind_assoc, pure_bind]
      simp [List.append_assoc]

/-- A stack of registered filters declares what one host filter declares. -/
theorem declarations_of_registered (hstack : ∀ f ∈ stack, f ∈ registry)
    (tokens seen : List String) :
    declarations tokens stack seen =
      if selects stack host then declarationsOf host tokens host.setupTokens seen
      else .ok ([], seen) := by
  induction stack generalizing seen with
  | nil => rfl
  | cons filter stack ih =>
      have hrest := ih fun f hf => hstack f (List.mem_cons_of_mem filter hf)
      have hfilter := hstack filter List.mem_cons_self
      rw [declarations]
      rcases mem_registry.mp hfilter with rfl | rfl
      · have htop : selects (host :: stack) host = true := rfl
        rw [if_pos htop]
        cases hfirst : declarationsOf host tokens host.setupTokens seen with
        | error e => rfl
        | ok result =>
            obtain ⟨first, middle⟩ := result
            have hnone : declarations tokens stack middle = .ok ([], middle) := by
              rw [hrest]
              split
              · exact declarationsOf_of_seen (declarationsOf_seen hfirst)
              · rfl
            simp [bind, Except.bind, hnone, pure, Except.pure]
      · have hnone : declarationsOf collections tokens collections.setupTokens seen =
            .ok ([], seen) := rfl
        have hselects : selects (collections :: stack) host = selects stack host := rfl
        simp only [hnone, hselects, ← hrest, bind, Except.bind, pure, Except.pure]
        cases declarations tokens stack seen with
        | error e => rfl
        | ok result => simp

/-! ## The least token -/

theorem least_of_least? {texts : List String} {least : String} (h : least? texts = some least) :
    least ∈ texts ∧ ∀ s ∈ texts, least ≤ s := by
  induction texts generalizing least with
  | nil => simp [least?] at h
  | cons s rest ih =>
      rw [least?] at h
      rw [List.forall_mem_cons]
      cases hrest : least? rest with
      | none =>
          rw [least?_eq_none] at hrest
          rw [hrest] at h ⊢
          cases h
          exact ⟨List.mem_cons_self, String.le_refl s, by simp⟩
      | some t =>
          obtain ⟨hmem, hle⟩ := ih hrest
          simp only [hrest, Option.some.injEq] at h
          by_cases hlt : t < s
          · rw [if_pos hlt] at h
            subst h
            exact ⟨List.mem_cons_of_mem s hmem, Std.le_of_lt hlt, hle⟩
          · rw [if_neg hlt] at h
            subst h
            have hst := String.not_lt.mp hlt
            exact ⟨List.mem_cons_self, String.le_refl s, fun r hr => String.le_trans hst (hle r hr)⟩

theorem least?_eq_some {texts : List String} {least : String} :
    least? texts = some least ↔ least ∈ texts ∧ ∀ s ∈ texts, least ≤ s := by
  constructor
  · exact least_of_least?
  · rintro ⟨hmem, hle⟩
    cases h : least? texts with
    | none =>
        rw [least?_eq_none] at h
        simp [h] at hmem
    | some t =>
        obtain ⟨ht, hleast⟩ := least_of_least? h
        rw [String.le_antisymm (hleast least hmem) (hle t ht)]

theorem least?_congr {texts texts' : List String} (h : ∀ s, s ∈ texts' ↔ s ∈ texts) :
    least? texts' = least? texts := by
  apply Option.ext
  intro smallest
  rw [least?_eq_some, least?_eq_some]
  simp only [h]

/-! ## Placing the declarations -/

/-- First the listed tokens are resolved, then the least one of the others is reported. -/
theorem materialize_eq_resolved (stack : List Filter) (tokens : List String) (program : Node) :
    materialize stack tokens program = (do
      let all ← (required stack tokens).mapM (resolve (declaration? stack))
      match least? (tokens.filter fun t => (provider? stack t).isNone) with
      | some token => throw (.unresolvedSetup token)
      | none => return placed all program) := by
  have hunlisted : (tokens.filter fun t => !((required stack tokens).reverse ++ []).contains t) =
      tokens.filter fun t => (provider? stack t).isNone := by
    refine List.filter_congr fun t ht => ?_
    have hlisted : ((required stack tokens).reverse ++ []).contains t =
        (provider? stack t).isSome := by
      rw [Bool.eq_iff_iff, List.contains_iff_mem, List.append_nil, List.mem_reverse, mem_required]
      simp [ht]
    rw [hlisted, Option.not_isSome]
  rw [materialize_eq, declarations_eq, ← required_eq]
  cases (required stack tokens).mapM (resolve (declaration? stack)) with
  | error e => rfl
  | ok all =>
      simp only [← hunlisted, bind, Except.bind, pure, Except.pure]
      rfl

/-- The ways that materialization can go: a listed token is unresolved; all listed ones are
resolved, and the least of the others is reported; or the declarations are placed. -/
theorem materialize_cases (stack : List Filter) (tokens : List String) (program : Node) :
    (∃ token ∈ tokens, (provider? stack token).isSome = true ∧ declaration? stack token = none ∧
      materialize stack tokens program = .error (.unresolvedSetup token)) ∨
    (∃ token ∈ tokens, provider? stack token = none ∧
      (∀ t ∈ tokens, provider? stack t = none → token ≤ t) ∧
      materialize stack tokens program = .error (.unresolvedSetup token)) ∨
    ((∀ token ∈ tokens, declaration? stack token ≠ none) ∧
      materialize stack tokens program =
        .ok (placed ((required stack tokens).filterMap (declaration? stack)) program)) := by
  rw [materialize_eq_resolved]
  rcases mapM_resolve_cases (declaration? stack) (required stack tokens) with
    ⟨hall, hok⟩ | ⟨token, hmem, hnone, herror⟩
  · rw [hok]
    right
    cases hleast : least? (tokens.filter fun t => (provider? stack t).isNone) with
    | some token =>
        left
        obtain ⟨hmem, hle⟩ := least?_eq_some.mp hleast
        rw [List.mem_filter, Option.isNone_iff_eq_none] at hmem
        refine ⟨token, hmem.1, hmem.2, fun t ht hnone => hle t ?_, rfl⟩
        rw [List.mem_filter, Option.isNone_iff_eq_none]
        exact ⟨ht, hnone⟩
    | none =>
        right
        rw [least?_eq_none, List.filter_eq_nil_iff] at hleast
        refine ⟨fun token ht => hall token (mem_required.mpr ⟨ht, ?_⟩), rfl⟩
        simpa [Option.isSome_iff_ne_none] using hleast token ht
  · left
    obtain ⟨htokens, hlisted⟩ := mem_required.mp hmem
    refine ⟨token, htokens, hlisted, hnone, ?_⟩
    rw [herror]
    rfl

/-- A program that has its declarations gets none of them again, nor those of fewer tokens. -/
theorem materialize_again {tokens' : List String} {program u : Node}
    (h : materialize stack tokens program = .ok u) (htokens : tokens' ⊆ tokens) :
    materialize stack tokens' u = .ok u := by
  rcases materialize_cases stack tokens program with
    ⟨_, _, _, _, herror⟩ | ⟨_, _, _, _, herror⟩ | ⟨hresolved, hok⟩
  · simp [herror] at h
  · simp [herror] at h
  rw [h, Except.ok.injEq] at hok
  rcases materialize_cases stack tokens' u with
    ⟨token, hmem, _, hnone, _⟩ | ⟨token, hmem, hnone, _, _⟩ | ⟨_, hok'⟩
  · exact absurd hnone (hresolved token (htokens hmem))
  · exact absurd (by simp [declaration?, hnone]) (hresolved token (htokens hmem))
  have hstated : ((required stack tokens').filterMap (declaration? stack)).filter
      (!isStated u ·) = [] := by
    apply List.filter_eq_nil_iff.mpr
    intro d hd
    obtain ⟨token, hmem, hdeclaration⟩ := List.mem_filterMap.mp hd
    obtain ⟨htoken, hlisted⟩ := mem_required.mp hmem
    have hbefore := isStated_placed (List.mem_filterMap.mpr
      ⟨token, mem_required.mpr ⟨htokens htoken, hlisted⟩, hdeclaration⟩) program
    rw [← hok] at hbefore
    simp [hbefore]
  rw [hok', placed, hstated]
  rfl

theorem materialize_congr_tokens {tokens' : List String} (h : ∀ t, t ∈ tokens' ↔ t ∈ tokens)
    (program : Node) : materialize stack tokens' program = materialize stack tokens program := by
  have hunlisted : least? (tokens'.filter fun t => (provider? stack t).isNone) =
      least? (tokens.filter fun t => (provider? stack t).isNone) :=
    least?_congr fun t => by rw [List.mem_filter, List.mem_filter, h]
  rw [materialize_eq_resolved, materialize_eq_resolved, required_eq, undeclared_congr h, hunlisted,
    ← required_eq]

/-- Materialization fails on an unresolved token and on nothing else; if all listed tokens are
resolved, on the least one that is not listed. Otherwise a program gets the declarations of its
tokens in canonical order, except for those that are statements of it, and its own statements
follow them. The order in which the tokens were registered does not matter. -/
theorem materialize_canonical (stack : List Filter) (tokens : List String) (program : Node) :
    ((∃ token, materialize stack tokens program = .error (.unresolvedSetup token)) ↔
      ∃ token ∈ tokens, Unresolved stack token) ∧
    (∀ token ∈ tokens, Unlisted stack token →
      (∀ t ∈ tokens, Unresolved stack t → Unlisted stack t ∧ token ≤ t) →
      materialize stack tokens program = .error (.unresolvedSetup token)) ∧
    ((∀ token ∈ tokens, ¬Unresolved stack token) →
      let new := ((required stack tokens).filterMap (declaration? stack)).filter
        (!isStated program ·)
      materialize stack tokens program = .ok
        (if new = [] then program
        else .new .begin (new.map .node ++
          if program.kind = .begin then program.children else [.node program]))) ∧
    ∀ tokens', (∀ t, t ∈ tokens' ↔ t ∈ tokens) →
      materialize stack tokens' program = materialize stack tokens program := by
  have hplaced (all : List Node) : placed all program =
      if all.filter (!isStated program ·) = [] then program
      else .new .begin ((all.filter (!isStated program ·)).map .node ++
        if program.kind = .begin then program.children else [.node program]) := by
    simp [placed, statements, Node.is]
  refine ⟨?_, ?_, ?_, fun tokens' h => materialize_congr_tokens h program⟩
  · rcases materialize_cases stack tokens program with ⟨token, hmem, -, hnone, h⟩ |
      ⟨token, hmem, hnone, -, h⟩ | ⟨hall, h⟩
    · exact iff_of_true ⟨token, h⟩ ⟨token, hmem, unresolved_iff.mpr hnone⟩
    · exact iff_of_true ⟨token, h⟩ ⟨token, hmem, .inl (provider?_eq_none.mp hnone)⟩
    · refine iff_of_false ?_ ?_
      · rintro ⟨token, herror⟩
        rw [h] at herror
        contradiction
      · rintro ⟨token, hmem, hunresolved⟩
        exact hall token hmem (unresolved_iff.mp hunresolved)
  · intro least hmem hunlisted hleast
    rcases materialize_cases stack tokens program with ⟨token, htoken, hlisted, hnone, -⟩ |
      ⟨token, htoken, hnone, hle, h⟩ | ⟨hall, -⟩
    · have hnot := (hleast token htoken (unresolved_iff.mpr hnone)).1
      simp [provider?_eq_none.mpr hnot] at hlisted
    · have hge := (hleast token htoken (.inl (provider?_eq_none.mp hnone))).2
      have hle := hle least hmem (provider?_eq_none.mpr hunlisted)
      rw [h, String.le_antisymm hle hge]
    · exact absurd (unresolved_iff.mp (.inl hunlisted)) (hall least hmem)
  · intro hresolved
    rcases materialize_cases stack tokens program with ⟨token, htoken, -, hnone, -⟩ |
      ⟨token, htoken, hnone, -, -⟩ | ⟨-, h⟩
    · exact absurd (unresolved_iff.mpr hnone) (hresolved token htoken)
    · exact absurd (.inl (provider?_eq_none.mp hnone)) (hresolved token htoken)
    · rw [h, hplaced]

/-- A filter that declares a local variable for each of its tokens but the last one. -/
def declaring (tokens : List String) (value : String) : Filter where
  name := value
  setupTokens := tokens
  setupDeclaration token :=
    if tokens.dropLast.contains token then
      some (.new .lvasgn [.sym token, .node (.string value)])
    else none

/-- Two filters share a token. Its declaration is the one of the first filter and follows that of
the token before it in the list; the program states another declaration itself. -/
theorem materialize_canonical_shared :
    materialize [declaring ["a", "b", "z"] "first", declaring ["b", "c", "z"] "second"]
        ["b", "c", "a"] (.new .lvasgn [.sym "c", .node (.string "second")]) =
      .ok (.new .begin [
        .node (.new .lvasgn [.sym "a", .node (.string "first")]),
        .node (.new .lvasgn [.sym "b", .node (.string "first")]),
        .node (.new .lvasgn [.sym "c", .node (.string "second")])]) ∧
    materialize [declaring ["a", "z"] "first"] ["a", "y", "x"] (.new .begin []) =
      .error (.unresolvedSetup "x") := by
  refine ⟨?_, ?_⟩
  · refine ((materialize_canonical _ _ _).2.2.1 ?_).trans rfl
    simp [unresolved_iff, declaration?, provider?, declaring]
  · refine (materialize_canonical _ _ _).2.1 "x" (by decide) ?_ ?_
    · simp [Unlisted, declaring]
    · simp [unresolved_iff, declaration?, provider?, declaring, Unlisted]

end RubyScript.Filter
