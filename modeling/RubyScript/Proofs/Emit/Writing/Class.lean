import RubyScript.Proofs.Emit.Writing.Branch

/-!
# Writing classes and modules

Classes, modules, their members and calls of the parent's method, for fine nodes, are texts of the
language, and they do not depend on lines and columns.
-/

namespace RubyScript.Emit

def Member.unplaced (member : Member) : Member :=
  { member with
    node := member.node.unplaced
    args := member.args.unplaced
    body := member.body.map Node.unplaced }

namespace Language

variable {options : Options} {L : Language options} {emit : Emitter} {n : Node}
  {name reference : String} {superclass : Option Node} {body : List Node}

/-! ## Members -/

variable (L) in
structure MemberFine (member : Member) : Prop where
  node : L.Fine member.node
  outputName : L.isName member.outputName = true
  args : L.Fine member.args
  body : ∀ b ∈ member.body, L.Fine b

theorem asyncText_text {member : Member} : L.Text member.asyncText := by
  unfold Member.asyncText
  split
  · exact L.fixed rfl
  · exact L.fixed rfl

theorem accessorText_text {member : Member} : L.Text member.accessorText := by
  unfold Member.accessorText
  split
  · exact L.fixed rfl
  · exact L.fixed rfl
  · exact L.fixed rfl

theorem fine_definition {m : Node} {isAsync : Bool} (hn : L.Fine n)
    (h : Member.definition? n = some (m, isAsync)) : L.Fine m := by
  unfold Member.definition? at h
  split at h
  · cases hat : n.nodeAt? 2 with
    | none =>
        rw [hat] at h
        cases h
    | some c =>
        rw [hat] at h
        dsimp only at h
        split at h
        · cases h
          exact hn.nodeAt hat
        · cases h
  · split at h
    · cases h
      exact hn
    · cases h

/-- The name of a member is an identifier: that of a constructor and of a setter by their form, any
other by the check that it has gone through. -/
theorem isName_outputName {member : Member} {inClass : Bool}
    (hshape : member.shape =
      Member.shapeOf member.node member.name member.args inClass member.isSingleton)
    (hname : (member.shape = .getter ∨ member.shape = .plain) → isIdentifier member.name = true) :
    L.isName member.outputName = true := by
  unfold Member.outputName
  split
  · exact isName_of_isIdentifier rfl
  · rename_i hsetter
    rw [hsetter] at hshape
    unfold Member.shapeOf at hshape
    split at hshape
    · cases hshape
    · split at hshape
      · rename_i hform
        simp only [Bool.and_eq_true] at hform
        obtain ⟨property, hproperty⟩ := Option.isSome_iff_exists.mp hform.1
        obtain ⟨hbefore, hidentifier⟩ := Option.filter_eq_some_iff.mp hproperty
        rw [hbefore]
        exact isName_of_isIdentifier hidentifier
      · split at hshape <;> cases hshape
  · rename_i hconstructor hsetter
    refine isName_of_isIdentifier (hname ?_)
    cases hkind : member.shape with
    | constructor => exact absurd hkind hconstructor
    | setter => exact absurd hkind hsetter
    | getter => exact .inl rfl
    | plain => exact .inr rfl

theorem follows_memberOf (hn : L.Fine n) {inClass : Bool} :
    L.Follows (Option.map Member.unplaced) (fun member => ∀ m ∈ member, L.MemberFine m)
      (Member.of? n inClass) (Member.of? n.unplaced inClass) := by
  unfold Member.of?
  rw [definition?_unplaced]
  cases hdefinition : Member.definition? n with
  | none => exact follows_pure (e := Option.map Member.unplaced) fun m hm => nomatch hm
  | some definition =>
      obtain ⟨m, isAsync⟩ := definition
      have hm : L.Fine m := fine_definition hn hdefinition
      dsimp only [Option.map_some]
      rw [Node.is_unplaced]
      have hrest : ∀ offset, L.Follows (Option.map Member.unplaced)
          (fun member => ∀ m ∈ member, L.MemberFine m)
          (do
            let name ← symChild m offset "(def name (args ...) body)"
            let args ← nodeChild m (offset + 1) "(def name (args ...) body)"
            let body ← optionalChild m (offset + 2) "(def name (args ...) body)"
            let shape := Member.shapeOf m name args inClass (m.is .singletonDef)
            if (shape = .getter ∨ shape = .plain) ∧ !isIdentifier name then
              unsupported ("method name '" ++ name ++ "' has no JavaScript equivalent") m
            return some ⟨m, name, args, body, shape, m.is .singletonDef, isAsync⟩)
          (do
            let name ← symChild m.unplaced offset "(def name (args ...) body)"
            let args ← nodeChild m.unplaced (offset + 1) "(def name (args ...) body)"
            let body ← optionalChild m.unplaced (offset + 2) "(def name (args ...) body)"
            let shape := Member.shapeOf m.unplaced name args inClass (m.is .singletonDef)
            if (shape = .getter ∨ shape = .plain) ∧ !isIdentifier name then
              unsupported ("method name '" ++ name ++ "' has no JavaScript equivalent") m.unplaced
            return some ⟨m.unplaced, name, args, body, shape, m.is .singletonDef, isAsync⟩) := by
        intro offset
        refine next follows_symChild fun name _ => bind (follows_nodeChild hm) fun args hargs => ?_
        refine bind (follows_optionalChild hm) fun body hbody => ?_
        rw [shapeOf_unplaced]
        dsimp only
        split
        · exact follows_unsupported_bind
        · rename_i hcheck
          refine follows_pure (e := Option.map Member.unplaced)
            (a := some ⟨m, name, args, body, _, _, _⟩) ?_
          intro member hmember
          cases hmember
          refine ⟨hm, isName_outputName rfl fun hshape => ?_, hargs, hbody⟩
          simpa using not_and.mp hcheck hshape
      split
      · refine bind (follows_nodeChild hm) fun object _ => ?_
        rw [Node.is_unplaced]
        split
        · exact hrest 1
        · exact follows_unsupported_bind
      · exact hrest 0

/-! ## Attributes -/

theorem isName_of_attributes {attributes : Attributes} (h : Attributes.of? n = some attributes) :
    ∀ name ∈ attributes.names, L.isName name = true := by
  unfold Attributes.of? at h
  split at h
  · cases h
  · obtain ⟨method, hmethod, h⟩ := Option.bind_eq_some_iff.mp h
    obtain ⟨mode, hmode, h⟩ := Option.bind_eq_some_iff.mp h
    obtain ⟨names, hnames, h⟩ := Option.bind_eq_some_iff.mp h
    split at h
    · cases h
      exact forall_of_mapM_eq_some hnames fun node _ name hname =>
        isName_of_isIdentifier (Option.filter_eq_some_iff.mp hname).2
    · cases h

theorem getterBody_text (h : L.isName name = true) : L.Text (Attributes.getterBody name) :=
  braced (L.append (L.fixed rfl) (word h))

theorem setterBody_text (h : L.isName name = true) : L.Text (Attributes.setterBody name) :=
  braced (L.append (L.append (L.append (L.fixed rfl) (word h)) (L.fixed rfl)) (word h))

theorem members_text {attributes : Attributes} {getter setter : String → String}
    (hgetter : L.Text (getter name)) (hsetter : L.Text (setter name)) :
    ∀ s ∈ attributes.members getter setter name, L.Text s := by
  unfold Attributes.members
  refine List.forall_mem_append.mpr ⟨?_, ?_⟩
  · split
    · exact List.forall_mem_singleton.mpr hgetter
    · exact List.forall_mem_nil _
  · split
    · exact List.forall_mem_singleton.mpr hsetter
    · exact List.forall_mem_nil _

/-! ## Bodies -/

theorem fine_bodyStatements {body : Option Node} (h : ∀ b ∈ body, L.Fine b) :
    ∀ s ∈ bodyStatements body, L.Fine s := by
  cases body with
  | none => exact List.forall_mem_nil _
  | some body =>
      rw [bodyStatements]
      split
      · exact Free.childNodes (h body rfl)
      · exact List.forall_mem_singleton.mpr (h body rfl)

/-- The own name of a constant. -/
theorem follows_ownName :
    L.Follows id (fun name => L.isName name = true ∧ n.is .constant = true) (ownName n)
      (ownName n.unplaced) := by
  unfold ownName
  rw [Node.is_unplaced]
  dsimp only
  split
  · rename_i hconstant
    refine next follows_symChild fun name _ => ?_
    split
    · rename_i hidentifier
      exact done ⟨isName_of_isIdentifier hidentifier, hconstant⟩
    · exact follows_malformed_bind
  · exact follows_malformed_bind

theorem follows_withinBody {α : Type} {e : α → α} {P : α → Prop} {x y : Emit α} {owner : Node}
    (howner : L.Fine owner) (hconstant : owner.is .constant = true) (hx : L.Follows e P x y) :
    L.Follows e P (withinBody owner body x)
      (withinBody owner.unplaced (body.map Node.unplaced) y) := by
  refine follows_withReader (fun env henv => ⟨henv.options, ?_, henv.methods⟩) (fun env => ?_) hx
  · exact List.forall_mem_cons.mpr ⟨⟨howner, hasMethod_eq_false hconstant (by decide)⟩, henv.bodies⟩
  · simp [Env.unplaced, Body.unplaced, List.filterMap_map]

theorem filter_unplaced {p : Node → Bool} (hp : ∀ n : Node, p n.unplaced = p n)
    (nodes : List Node) :
    (nodes.map Node.unplaced).filter p = (nodes.filter p).map Node.unplaced := by
  rw [List.filter_map]
  congr 1
  exact List.filter_congr fun n _ => hp n

section Classes

variable (hemit : L.Writer emit)
include hemit

theorem writes_memberTail {member : Member} (hmember : L.MemberFine member)
    (hsuperclass : ∀ s ∈ superclass, L.Fine s) :
    L.Writes (memberTail emit member superclass)
      (memberTail emit member.unplaced (superclass.map Node.unplaced)) := by
  have hmethod : member.form ≠ .arrow := by
    unfold Member.form
    split <;> decide
  unfold memberTail
  refine follows_withReader (fun env henv => ⟨henv.options, henv.bodies, ?_⟩) (fun env => ?_)
    (writes_functionTail hemit hmember.args hmember.body fun h => absurd h hmethod)
  · exact List.forall_mem_cons.mpr
      ⟨⟨hmember.outputName, hmember.args.childNodes, hsuperclass⟩, henv.methods⟩
  · have hparams : member.unplaced.args.childNodes = member.args.childNodes.map Node.unplaced :=
      Node.childNodes_unplaced member.args
    rw [hparams]
    rfl

theorem writes_ownerAssignments (hbody : ∀ s ∈ body, L.Fine s) :
    L.Writes (ownerAssignments emit body) (ownerAssignments emit (body.map Node.unplaced)) := by
  unfold ownerAssignments
  rw [filter_unplaced isOwnerAssignment_unplaced]
  refine next (each fun s hs => hemit _ s (hbody s (List.mem_filter.mp hs).1)) fun texts htexts =>
    done (join (List.forall_mem_map.mpr fun s hs => ?_))
  exact L.append (L.fixed rfl) (htexts s (List.mem_filter.mp hs).1)

/-! ## Classes -/

theorem writes_classMember (hn : L.Fine n) (hsuperclass : ∀ s ∈ superclass, L.Fine s) :
    L.Writes (classMember emit superclass n)
      (classMember emit (superclass.map Node.unplaced) n.unplaced) := by
  unfold classMember
  rw [attributesOf?_unplaced]
  cases hattributes : Attributes.of? n with
  | some attributes =>
      refine done (joined (L.fixed rfl) fun s hs => ?_)
      obtain ⟨name, hname, hs⟩ := List.mem_flatMap.mp hs
      have hname := isName_of_attributes (L := L) hattributes name hname
      refine members_text ?_ ?_ s hs
      · exact L.append (L.append (L.append (L.fixed rfl) (word hname)) (L.fixed rfl))
          (getterBody_text hname)
      · exact L.append (L.append (L.append (L.append (L.fixed rfl) (word hname))
          (parenthesized (word hname))) (L.fixed rfl)) (setterBody_text hname)
  | none =>
      refine bind (follows_memberOf hn) fun member hmember => ?_
      cases member with
      | none => exact follows_unsupported
      | some member =>
          have hfine : L.MemberFine member := hmember member rfl
          have hstatic : L.Text (if member.isSingleton then "static " else "") := by
            split
            · exact L.fixed rfl
            · exact L.fixed rfl
          refine next (writes_memberTail hemit hfine hsuperclass) fun tail htail => done ?_
          exact L.append (L.append (L.append (L.append hstatic asyncText_text) accessorText_text)
            (word hfine.outputName)) htail

theorem writes_modernClass (hname : L.isName name = true) (hreference : L.Text reference)
    (hsuperclass : ∀ s ∈ superclass, L.Fine s) (hbody : ∀ s ∈ body, L.Fine s) :
    L.Writes (modernClass emit name reference superclass body)
      (modernClass emit name reference (superclass.map Node.unplaced)
        (body.map Node.unplaced)) := by
  have hbinding : L.Text (if reference == name then "" else reference ++ " = ") := by
    split
    · exact L.fixed rfl
    · exact L.append hreference (L.fixed rfl)
  have hrest : ∀ heritage, L.Text heritage → L.Writes
      (do
        let members ← (body.filter (!isOwnerAssignment ·)).mapM (classMember emit superclass)
        return (if reference == name then "" else reference ++ " = ") ++ "class " ++
          name ++ heritage
          ++ " " ++ Emit.braced (Text.joined "; " members) ++ (← ownerAssignments emit body))
      (do
        let members ← ((body.map Node.unplaced).filter (!isOwnerAssignment ·)).mapM
          (classMember emit (superclass.map Node.unplaced))
        return (if reference == name then "" else reference ++ " = ") ++ "class " ++
          name ++ heritage
          ++ " " ++ Emit.braced (Text.joined "; " members)
          ++ (← ownerAssignments emit (body.map Node.unplaced))) := by
    intro heritage hheritage
    rw [filter_unplaced (by simp)]
    refine next (each fun s hs => writes_classMember hemit (hbody s (List.mem_filter.mp hs).1)
      hsuperclass) fun members hmembers => ?_
    refine next (writes_ownerAssignments hemit hbody) fun text htext => done ?_
    exact L.append (L.append (L.append (L.append (L.append (L.append hbinding (L.fixed rfl))
      (word hname)) hheritage) (L.fixed rfl)) (braced (joined (L.fixed rfl) hmembers))) htext
  unfold modernClass
  cases superclass with
  | some parent =>
      exact next (writes_operand hemit (hsuperclass parent rfl)) fun text htext =>
        hrest _ (L.append (L.fixed rfl) htext)
  | none => exact hrest "" (L.fixed rfl)

omit hemit in
theorem propertyDefinition_text {object accessors : String} (hobject : L.Text object)
    (hname : L.isName name = true) (haccessors : L.Text accessors) :
    L.Text (propertyDefinition object name accessors) :=
  L.append (L.append (L.append (L.append (L.append (L.append (L.fixed rfl) hobject) (L.fixed rfl))
    (word hname)) (L.fixed rfl)) (braced (L.append (L.fixed rfl) haccessors))) (L.fixed rfl)

omit hemit in
theorem follows_legacyMember (hn : L.Fine n) :
    L.Follows (Option.map Member.unplaced) (fun member => ∀ m ∈ member, L.MemberFine m)
      (legacyMember? n) (legacyMember? n.unplaced) := by
  unfold legacyMember?
  rw [attributesOf?_unplaced]
  dsimp only
  split
  · exact follows_pure (e := Option.map Member.unplaced) fun m hm => nomatch hm
  · refine bind (follows_memberOf hn) fun member hmember => ?_
    cases member with
    | none => exact follows_unsupported
    | some member =>
        have hasync : member.unplaced.isAsync = member.isAsync := rfl
        dsimp only [Option.map_some]
        rw [hasync]
        split
        · exact follows_unsupported_bind
        · exact follows_pure (e := Option.map Member.unplaced) (a := some member) hmember

theorem writes_constructorTail {parent : Option String} {member : Option Member}
    (hsuperclass : ∀ s ∈ superclass, L.Fine s) (hparent : ∀ p ∈ parent, L.Text p)
    (hmember : ∀ m ∈ member, L.MemberFine m) :
    L.Writes (constructorTail emit superclass parent member)
      (constructorTail emit (superclass.map Node.unplaced) parent
        (member.map Member.unplaced)) := by
  cases member with
  | some member => exact writes_memberTail hemit (hmember member rfl) hsuperclass
  | none =>
      cases parent with
      | some parent =>
          exact done (L.append (L.fixed rfl) (braced (L.append (hparent parent rfl) (L.fixed rfl))))
      | none => exact done (L.append (L.fixed rfl) (braced (L.fixed rfl)))

omit hemit in
theorem inheritance_text {parent : Option String} (hreference : L.Text reference)
    (hparent : ∀ p ∈ parent, L.Text p) : L.Text (inheritance reference parent) := by
  cases parent with
  | none => exact L.fixed rfl
  | some parent =>
      exact L.append (L.append (L.append (L.append (L.append (L.append (L.append (L.fixed rfl)
        hreference) (L.fixed rfl)) (hparent parent rfl)) (L.fixed rfl)) hreference) (L.fixed rfl))
        hreference

theorem writes_legacyStatement (hn : L.Fine n) (hreference : L.Text reference)
    (hsuperclass : ∀ s ∈ superclass, L.Fine s) :
    L.Writes (legacyStatement emit reference superclass n)
      (legacyStatement emit reference (superclass.map Node.unplaced) n.unplaced) := by
  have hprototype : L.Text (reference ++ ".prototype") := L.append hreference (L.fixed rfl)
  unfold legacyStatement
  rw [attributesOf?_unplaced]
  cases hattributes : Attributes.of? n with
  | some attributes =>
      refine done (join (List.forall_mem_map.mpr fun name hname => ?_))
      have hname := isName_of_attributes (L := L) hattributes name hname
      refine propertyDefinition_text hprototype hname (commas (members_text ?_ ?_))
      · exact L.append (L.fixed rfl) (getterBody_text hname)
      · exact L.append (L.append (L.append (L.fixed rfl) (parenthesized (word hname)))
          (L.fixed rfl))
          (setterBody_text hname)
  | none =>
      refine bind (follows_memberOf hn) fun member hmember => ?_
      cases member with
      | none => exact done (L.fixed rfl)
      | some member =>
          have hfine : L.MemberFine member := hmember member rfl
          have hobject : L.Text (if member.isSingleton then reference else reference ++
              ".prototype") := by
            split
            · exact hreference
            · exact hprototype
          have htail := writes_memberTail hemit hfine hsuperclass
          have hshape : member.unplaced.shape = member.shape := rfl
          rw [Option.map_some]
          dsimp only
          rw [hshape]
          cases member.shape with
          | constructor => exact done (L.fixed rfl)
          | plain =>
              refine next htail fun tail htail => done (L.append (L.append ?_ (L.fixed rfl)) htail)
              exact memberOf (L.append (L.fixed rfl) hobject) hfine.outputName
          | getter =>
              exact next htail fun tail htail => done
                (propertyDefinition_text hobject hfine.outputName (L.append (L.fixed rfl) htail))
          | setter =>
              exact next htail fun tail htail => done
                (propertyDefinition_text hobject hfine.outputName (L.append (L.fixed rfl) htail))

theorem writes_legacyClass (hname : L.isName name = true) (hreference : L.Text reference)
    (hsuperclass : ∀ s ∈ superclass, L.Fine s) (hbody : ∀ s ∈ body, L.Fine s) :
    L.Writes (legacyClass emit name reference superclass body)
      (legacyClass emit name reference (superclass.map Node.unplaced)
        (body.map Node.unplaced)) := by
  have hinner : ∀ s ∈ body.filter (!isOwnerAssignment ·), L.Fine s :=
    fun s hs => hbody s (List.mem_filter.mp hs).1
  unfold legacyClass
  rw [filter_unplaced (by simp)]
  refine bind (follows_mapM fun s hs => follows_legacyMember (hinner s hs))
    fun members hmembers => ?_
  have hfilter : (members.map (Option.map Member.unplaced)).filterMap id =
      (members.filterMap id).map Member.unplaced := by
    rw [List.filterMap_map, List.map_filterMap]
    rfl
  have hfind : ((members.filterMap id).map Member.unplaced).find? (·.shape == .constructor) =
      ((members.filterMap id).find? (·.shape == .constructor)).map Member.unplaced :=
    List.find?_map
  have hconstructor : ∀ m ∈ (members.filterMap id).find? (·.shape == .constructor),
      L.MemberFine m := by
    intro m hm
    obtain ⟨member, hmember, heq⟩ := List.mem_filterMap.mp (List.mem_of_find?_eq_some hm)
    exact hmembers member hmember m heq
  have hhead : L.Text (if reference == name then "function " ++ name else reference ++
      " = function") := by
    split
    · exact L.append (L.fixed rfl) (word hname)
    · exact L.append hreference (L.fixed rfl)
  have hrest : ∀ parent : Option String, (∀ p ∈ parent, L.Text p) → L.Writes
      (do
        let tail ← constructorTail emit superclass parent
          ((members.filterMap id).find? (·.shape == .constructor))
        let texts ← (body.filter (!isOwnerAssignment ·)).mapM
          (legacyStatement emit reference superclass)
        return (if reference == name then "function " ++ name else reference ++
          " = function") ++ tail
          ++ inheritance reference parent ++ String.join texts ++ (← ownerAssignments emit body))
      (do
        let tail ← constructorTail emit (superclass.map Node.unplaced) parent
          (((members.filterMap id).find? (·.shape == .constructor)).map Member.unplaced)
        let texts ← ((body.filter (!isOwnerAssignment ·)).map Node.unplaced).mapM
          (legacyStatement emit reference (superclass.map Node.unplaced))
        return (if reference == name then "function " ++ name else reference ++
          " = function") ++ tail
          ++ inheritance reference parent ++ String.join texts
          ++ (← ownerAssignments emit (body.map Node.unplaced))) :=
    fun parent hparent =>
      next (writes_constructorTail hemit hsuperclass hparent hconstructor) fun tail htail =>
        next (each fun s hs => writes_legacyStatement hemit (hinner s hs) hreference hsuperclass)
          fun texts htexts => next (writes_ownerAssignments hemit hbody) fun text htext => done
            (L.append (L.append (L.append (L.append hhead htail)
              (inheritance_text hreference hparent))
              (join htexts)) htext)
  dsimp only
  rw [hfilter, hfind]
  cases superclass with
  | none => exact hrest none fun p hp => nomatch hp
  | some parent =>
      refine bind (follows_map (d := id) (R := fun text => ∀ p ∈ text, L.Text p)
        (writes_operand hemit (hsuperclass parent rfl)) (fun text htext p hp => ?_) fun _ =>
          rfl) hrest
      cases hp
      exact htext

theorem writes_classDef (hn : L.Fine n) :
    L.Writes (classDef emit n) (classDef emit n.unplaced) := by
  unfold classDef
  refine bind (follows_nodeChild hn) fun nameNode hnameNode => ?_
  refine next follows_ownName fun name hname =>
    bind (follows_optionalChild hn) fun superclass hsuperclass => ?_
  refine bind (follows_optionalChild hn) fun body hbody => ?_
  have hstatements := fine_bodyStatements hbody
  rw [bodyStatements_unplaced]
  refine next (hemit _ nameNode hnameNode) fun reference hreference => ?_
  refine follows_withinBody hnameNode hname.2 (next follows_isModern fun modern _ => ?_)
  split
  · exact writes_modernClass hemit hname.1 hreference hsuperclass hstatements
  · exact writes_legacyClass hemit hname.1 hreference hsuperclass hstatements

/-! ## Modules -/

theorem writes_moduleMember (hn : L.Fine n) :
    L.Writes (moduleMember emit n) (moduleMember emit n.unplaced) := by
  unfold moduleMember
  refine bind (follows_memberOf hn) fun member hmember => ?_
  cases member with
  | none => exact follows_unsupported
  | some member =>
      have hfine : L.MemberFine member := hmember member rfl
      refine next follows_isModern fun modern _ => ?_
      refine next (writes_memberTail hemit hfine fun s hs => nomatch hs)
        fun tail htail => done ?_
      refine L.append (L.append (L.append (L.append asyncText_text accessorText_text)
        (word hfine.outputName)) ?_) htail
      split
      · exact L.fixed rfl
      · exact L.fixed rfl

theorem writes_moduleBody (hbody : ∀ s ∈ body, L.Fine s) :
    L.Writes (moduleBody emit body) (moduleBody emit (body.map Node.unplaced)) := by
  unfold moduleBody
  rw [filter_unplaced (by simp)]
  refine next (each fun s hs => writes_moduleMember hemit (hbody s (List.mem_filter.mp hs).1))
    fun members hmembers => next (writes_ownerAssignments hemit hbody) fun text htext => done ?_
  exact L.append (braced (commas hmembers)) htext

theorem writes_moduleDef (hn : L.Fine n) :
    L.Writes (moduleDef emit n) (moduleDef emit n.unplaced) := by
  unfold moduleDef
  refine bind (follows_nodeChild hn) fun nameNode hnameNode =>
    next follows_ownName fun name hname => ?_
  refine bind (follows_optionalChild hn) fun body hbody => ?_
  rw [bodyStatements_unplaced]
  refine next (hemit _ nameNode hnameNode) fun reference hreference => ?_
  refine next follows_level fun level _ => next follows_isStatement fun statement _ => ?_
  refine next (follows_withinBody hnameNode hname.2
    (writes_moduleBody hemit (fine_bodyStatements hbody))) fun text htext => done ?_
  refine L.append (L.append (L.append (keywordText fun keyword hkeyword => ?_) hreference)
    (L.fixed rfl)) htext
  split at hkeyword
  · cases hkeyword
    exact constantKeyword level
  · cases hkeyword

/-! ## The method of the parent class -/

omit hemit in
theorem fine_forwardedArguments {params : List Node} (h : ∀ p ∈ params, L.Fine p) :
    ∀ a ∈ forwardedArguments params, L.Fine a := by
  intro a ha
  obtain ⟨param, hparam, ha⟩ := List.mem_filterMap.mp ha
  obtain ⟨name, hname, rfl⟩ := Option.map_eq_some_iff.mp ha
  have hread : L.Fine (.new .lvar [.sym name]) :=
    fine_names (by decide) (by decide) ((h param hparam).name hname (.inl (by decide)))
  dsimp only
  split
  · exact fine_mk (by decide) (by decide) (List.forall_mem_singleton.mpr hread)
  · exact hread

theorem writes_legacySuper {method : Method} {parent : Node} {isImplicit : Bool} {args : List Node}
    (hmethod : L.MethodFine method) (hparent : L.Fine parent) (hargs : ∀ a ∈ args, L.Fine a) :
    L.Writes (legacySuper emit method parent isImplicit args)
      (legacySuper emit method.unplaced parent.unplaced isImplicit (args.map Node.unplaced)) := by
  unfold legacySuper
  rw [any_splat_unplaced]
  refine next (writes_operand hemit hparent) fun parentText hparentText => ?_
  have hcallee : L.Text (if method.isConstructor then parentText
      else parentText ++ (if method.isSingleton then "" else ".prototype") ++ "." ++
        method.name) := by
    split
    · exact hparentText
    · refine memberOf (L.append hparentText ?_) hmethod.name
      split
      · exact L.fixed rfl
      · exact L.fixed rfl
  dsimp only
  split
  · exact done (L.append hcallee (L.fixed rfl))
  · split
    · exact next (writes_elements hemit hargs) fun text htext => done
        (L.append (L.append (L.append hcallee (L.fixed rfl)) htext) (L.fixed rfl))
    · refine next (each fun a ha => writes_operand hemit (hargs a ha)) fun texts htexts => done ?_
      exact L.append (L.append (L.append hcallee (L.fixed rfl))
        (commas (List.forall_mem_cons.mpr ⟨L.fixed rfl, htexts⟩))) (L.fixed rfl)

theorem writes_superCall (hn : L.Fine n) :
    L.Writes (superCall emit n) (superCall emit n.unplaced) := by
  unfold superCall
  refine bind follows_read fun env henv => ?_
  have hmethods := henv.methods
  have hunplaced : env.unplaced.methods = env.methods.map Method.unplaced := rfl
  rw [hunplaced, Node.is_unplaced, Node.children_unplaced]
  generalize env.methods = methods at hmethods
  rcases methods with _ | ⟨method, rest⟩
  · exact follows_unsupported
  · rw [List.forall_mem_cons] at hmethods
    have hmethod := hmethods.1
    have hsuper : method.unplaced.superclass = method.superclass.map Node.unplaced := rfl
    have hparent := hmethod.superclass
    rw [List.map_cons]
    dsimp only
    rw [hsuper]
    generalize method.superclass = superclass at hparent
    cases superclass with
    | none => exact follows_unsupported
    | some parent =>
        have hrest : ∀ args : List Node, (∀ a ∈ args, L.Fine a) → L.Writes
            (do
              if ← isModern then
                return (if method.isConstructor then "super" else "super." ++ method.name)
                  ++ Emit.parenthesized (← arguments emit args)
              legacySuper emit method parent (n.is .zsuper) args)
            (do
              if ← isModern then
                return (if method.isConstructor then "super" else "super." ++ method.name)
                  ++ Emit.parenthesized (← arguments emit (args.map Node.unplaced))
              legacySuper emit method.unplaced parent.unplaced (n.is .zsuper)
                (args.map Node.unplaced)) := by
          intro args hargs
          refine next follows_isModern fun modern hmodern => ?_
          split
          · rename_i htrue
            have hlater := ne_es5_of_isBlockScoped (hmodern.symm.trans htrue)
            refine next (writes_arguments hemit hargs) fun text htext => done ?_
            refine L.append ?_ (parenthesized htext)
            split
            · exact L.fixed rfl
            · exact L.append (L.late hlater rfl) (word hmethod.name)
          · exact writes_legacySuper hemit hmethod (hparent parent rfl) hargs
        dsimp only [Option.map_some]
        split
        · have hforwarded := hrest _ (fine_forwardedArguments hmethod.params)
          rw [map_unplaced_forwardedArguments] at hforwarded
          exact hforwarded
        · exact bind (follows_allNodes fun c hc => hn.child hc) hrest

end Classes

end Language

end RubyScript.Emit
