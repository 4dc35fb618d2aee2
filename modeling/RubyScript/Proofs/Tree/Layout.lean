import RubyScript.Proofs.Tree.RoundTrip

/-!
# Layout of s-expressions

Blanks, commas and comments are trivia. A layout of a tree is its text with other trivia in the
place of each blank, and with further trivia in front of it, in front of each closing parenthesis
and behind it. The reader does not see the difference: from every layout it reads the tree that it
reads from the text of the tree, with the same locations.
-/

namespace RubyScript

namespace Sexp

/-! ## The end of a text -/

/-- Trivia at the end of a text, where the end of the text ends a comment as well. -/
inductive LastTrivia : List Char → Prop
  | closed {gap : List Char} (hgap : Trivia gap) : LastTrivia gap
  | unclosed {gap words : List Char} (hgap : Trivia gap) (hwords : '\n' ∉ words) :
      LastTrivia (gap ++ '#' :: words)

namespace Cursor

/-- A comment at the end of a text is skipped with the text. -/
theorem skipTriviaFrom_unclosed {words : List Char} (hwords : '\n' ∉ words) (offset : Nat) :
    skipTriviaFrom true words offset = ⟨[], offset + Text.byteLength words⟩ := by
  induction words generalizing offset with
  | nil => rfl
  | cons c words ih =>
      obtain ⟨hc, hwords⟩ : '\n' ≠ c ∧ '\n' ∉ words := by simpa using hwords
      rw [skipTriviaFrom, if_pos rfl, bne_iff_ne.mpr (Ne.symm hc), ih hwords]
      simp only [Text.byteLength]
      rw [Nat.add_assoc]

end Cursor

theorem reads_lastTrivia {gap : List Char} (hgap : LastTrivia gap) :
    Reads skipTrivia gap [] () := by
  intro offset
  show (Except.ok (), Cursor.skipTriviaFrom false (gap ++ []) offset) = _
  cases hgap with
  | closed hgap =>
      rw [Cursor.skipTriviaFrom_trivia hgap]
      rfl
  | @unclosed gap words hgap hwords =>
      rw [List.append_assoc, Cursor.skipTriviaFrom_trivia hgap, List.append_nil,
        Cursor.skipTriviaFrom_hash, Cursor.skipTriviaFrom_unclosed hwords]
      simp only [Text.byteLength_append, Text.byteLength_cons, Text.byteLength_nil, Nat.add_assoc,
        Nat.zero_add]

end Sexp

/-! ## Layouts -/

open Sexp (Trivia LastTrivia)

mutual

/-- The text is the node with any trivia between its parts. -/
inductive Node.LaidOut : Node → List Char → Prop
  | mk {kind : Kind} {children : List Child} {location : Option Location} {text gap : List Char}
      (hchildren : Child.LaidOutEach children text) (hgap : Trivia gap) :
      Node.LaidOut (.mk kind children location)
        (['('] ++ (kind.name.toList ++ (Sexp.locationSuffix location).toList)
          ++ (text ++ (gap ++ [')'])))

/-- The text is the child; only nodes have trivia inside. -/
inductive Child.LaidOut : Child → List Char → Prop
  | node {n : Node} {text : List Char} (hn : Node.LaidOut n text) : Child.LaidOut (.node n) text
  | leaf {c : Child} (hc : ∀ n, c ≠ .node n) : Child.LaidOut c c.text.toList

/-- The text consists of the children, each after trivia. -/
inductive Child.LaidOutEach : List Child → List Char → Prop
  | nil : Child.LaidOutEach [] []
  | cons {c : Child} {cs : List Child} {gap text more : List Char} (hgap : Trivia gap)
      (hne : gap ≠ []) (hc : Child.LaidOut c text) (hcs : Child.LaidOutEach cs more) :
      Child.LaidOutEach (c :: cs) (gap ++ (text ++ more))

end

mutual

/-- The text of a tree is one of its layouts. -/
theorem Node.laidOut_text : (n : Node) → n.LaidOut n.text.toList
  | .mk kind children location => by
      have hlayout : Node.LaidOut (.mk kind children location) _ :=
        .mk (Child.laidOutEach_listText children) .nothing
      rw [Sexp.node_text_eq]
      exact hlayout

theorem Child.laidOut_text : (c : Child) → c.LaidOut c.text.toList
  | .node n => .node (Node.laidOut_text n)
  | .nil | .sym _ | .str _ | .int _ | .float _ => .leaf fun _ => nofun

theorem Child.laidOutEach_listText :
    (cs : List Child) → Child.LaidOutEach cs (Child.listText cs).toList
  | [] => .nil
  | c :: cs => by
      have hlayout := Child.LaidOutEach.cons Sexp.trivia_space (List.cons_ne_nil _ _)
        (Child.laidOut_text c) (Child.laidOutEach_listText cs)
      have htext : (Child.listText (c :: cs)).toList =
          [' '] ++ (c.text.toList ++ (Child.listText cs).toList) := by simp [Child.listText]
      rw [htext]
      exact hlayout

end

namespace Sexp

/-! ## Reading layouts -/

theorem head_of_laidOut {c : Child} {text : List Char} (h : c.LaidOut text) :
    ∃ first tail, text = first :: tail ∧ startsItem first = true ∧ first ≠ ')' := by
  cases h with
  | node hn =>
      cases hn
      exact ⟨'(', _, rfl, by decide, by decide⟩
  | leaf _ => exact child_text_head c

theorem ended_of_laidOutEach {cs : List Child} {text rest : List Char}
    (h : Child.LaidOutEach cs text) (hrest : Ended rest) : Ended (text ++ rest) := by
  cases h with
  | nil => exact hrest
  | @cons c cs gap text more hgap hne _ _ =>
      cases gap with
      | nil => exact absurd rfl hne
      | cons d gap =>
          have hended : Ended ((d :: gap) ++ rest) := hgap.ended hrest
          exact fun e he => hended e he

theorem ended_gap {gap : List Char} (hgap : Trivia gap) (rest : List Char) :
    Ended (gap ++ ([')'] ++ rest)) := hgap.ended (ended_cons (by decide) rest)

/-- Every layout of the node is read back. -/
def NodeReadsLaidOut (n : Node) : Prop :=
  n.WellTagged → n.FloatsFinite → ∀ text, n.LaidOut text → ∀ fuel, 3 * text.length ≤ fuel →
    ∀ rest, Reads (readNode fuel) text rest n

def ChildReadsLaidOut (c : Child) : Prop :=
  (∀ n, c = .node n → n.WellTagged) → c.FloatsFinite → ∀ text, c.LaidOut text →
    ∀ fuel, 3 * text.length + 1 ≤ fuel → ∀ rest, Ended rest → Reads (readChild fuel) text rest c

def ChildrenReadLaidOut (cs : List Child) : Prop :=
  (∀ n, .node n ∈ cs → n.WellTagged) → (∀ c ∈ cs, c.FloatsFinite) →
    ∀ text, Child.LaidOutEach cs text → ∀ gap, Trivia gap →
      ∀ fuel, 3 * (text ++ gap).length + 1 ≤ fuel →
        ∀ rest, Reads (readChildren fuel) (text ++ (gap ++ [')'])) rest cs

theorem nodeReadsLaidOut_mk {kind : Kind} {children : List Child} {location : Option Location}
    (ih : ChildrenReadLaidOut children) : NodeReadsLaidOut (.mk kind children location) := by
  intro htags hfloats _ hnode fuel hfuel rest
  obtain @⟨_, _, _, text, gap, hlaid, hgap⟩ := hnode
  obtain ⟨hkind, hchildren⟩ := Node.wellTagged_mk.1 htags
  simp only [List.length_append, List.length_cons, List.length_nil] at hfuel
  obtain ⟨fuel, rfl⟩ : ∃ k, fuel = k + 1 := ⟨fuel - 1, by omega⟩
  have hbody : Reads (readChildren fuel) (text ++ (gap ++ [')'])) rest children := by
    refine ih hchildren (Node.floatsFinite_mk.1 hfloats) text hlaid gap hgap fuel ?_ rest
    rw [List.length_append]
    omega
  have hended : Ended (text ++ (gap ++ [')']) ++ rest) := by
    rw [List.append_assoc, List.append_assoc]
    exact ended_of_laidOutEach hlaid (ended_gap hgap rest)
  exact (reads_head hkind location hended).bind (hbody.bind_pure rfl)

theorem childrenReadLaidOut_nil : ChildrenReadLaidOut [] := by
  intro _ _ _ hnil gap hgap fuel hfuel rest
  cases hnil
  obtain ⟨fuel, rfl⟩ : ∃ k, fuel = k + 1 := ⟨fuel - 1, by omega⟩
  rw [List.nil_append]
  refine (reads_trivia hgap (c := ')') (by decide) rest).bind (reads_peek ?_)
  exact (reads_skip [')'] rest).bind_pure rfl

theorem childrenReadLaidOut_cons {c : Child} {cs : List Child} (ihc : ChildReadsLaidOut c)
    (ihcs : ChildrenReadLaidOut cs) : ChildrenReadLaidOut (c :: cs) := by
  intro htags hfloats _ hcons gap hgap fuel hfuel rest
  cases hcons with
  | @cons _ _ before text more hfirst hne hc hcs =>
      obtain ⟨fuel, rfl⟩ : ∃ k, fuel = k + 1 := ⟨fuel - 1, by omega⟩
      obtain ⟨hfinite, hfinites⟩ := List.forall_mem_cons.1 hfloats
      have hbefore : 0 < before.length := List.length_pos_iff.2 hne
      simp only [List.length_append] at hfuel
      have hended : Ended (more ++ (gap ++ [')']) ++ rest) := by
        rw [List.append_assoc, List.append_assoc]
        exact ended_of_laidOutEach hcs (ended_gap hgap rest)
      have hchild := ihc (fun n hn =>
        htags n (by simp [hn])) hfinite text hc fuel (by omega) _ hended
      have hrest : Reads (readChildren fuel) (more ++ (gap ++ [')'])) rest cs := by
        refine ihcs (fun n hn => htags n (List.mem_cons_of_mem c hn)) hfinites more hcs gap
          hgap fuel
          ?_ rest
        rw [List.length_append]
        omega
      obtain ⟨first, tail, hhead, hstarts, hclose⟩ := head_of_laidOut hc
      have hskip : Reads skipTrivia before (text ++ (more ++ (gap ++ [')'])) ++ rest) () := by
        rw [hhead]
        exact reads_trivia hfirst hstarts _
      rw [List.append_assoc, List.append_assoc]
      refine hskip.bind (reads_peek ?_)
      simp only [hhead, List.cons_append, List.head?_cons]
      rw [← List.cons_append, ← hhead]
      exact hchild.bind (hrest.bind_pure rfl)

theorem childReadsLaidOut_node {n : Node} (ih : NodeReadsLaidOut n) :
    ChildReadsLaidOut (.node n) := by
  rintro htags ⟨-, hfinite⟩ text hlaid fuel hfuel rest _
  obtain ⟨fuel, rfl⟩ : ∃ k, fuel = k + 1 := ⟨fuel - 1, by omega⟩
  cases hlaid with
  | leaf h => exact absurd rfl (h n)
  | node hn =>
      have hread := ih (htags n rfl) (hfinite n rfl) text hn fuel (by omega) rest
      have hhead : (text ++ rest).head? = some '(' := by
        cases hn
        rfl
      refine reads_get fun offset => reads_peek ?_
      simp only [hhead]
      exact hread.bind_pure rfl

/-- Children that are no nodes have one layout only, their text. -/
theorem childReadsLaidOut_leaf {c : Child} (hnode : ∀ n, c ≠ .node n)
    (hc : c.isUnbounded = false → ∀ fuel rest, Ended rest →
      Reads (readChild (fuel + 1)) c.text.toList rest c) : ChildReadsLaidOut c := by
  rintro _ ⟨hbounded, -⟩ text hlaid fuel hfuel rest hrest
  obtain ⟨fuel, rfl⟩ : ∃ k, fuel = k + 1 := ⟨fuel - 1, by omega⟩
  cases hlaid with
  | node => exact absurd rfl (hnode _)
  | leaf _ => exact hc hbounded fuel rest hrest

mutual

theorem nodeReadsLaidOut : (n : Node) → NodeReadsLaidOut n
  | .mk _ children _ => nodeReadsLaidOut_mk (childrenReadLaidOut children)

theorem childReadsLaidOut : (c : Child) → ChildReadsLaidOut c
  | .node n => childReadsLaidOut_node (nodeReadsLaidOut n)
  | .nil => childReadsLaidOut_leaf (by simp) fun _ fuel _ => reads_child_nil fuel
  | .sym name => childReadsLaidOut_leaf (by simp) fun _ fuel _ => reads_child_symbol fuel name
  | .str s => childReadsLaidOut_leaf (by simp) fun _ fuel rest _ => reads_child_string fuel s rest
  | .int i => childReadsLaidOut_leaf (by simp) fun _ fuel _ => reads_int i fuel
  | .float x => childReadsLaidOut_leaf (by simp) fun hbounded fuel _ hrest =>
      (readsWhen_float x fuel hrest).reads (by simpa [Child.isUnbounded] using hbounded)

theorem childrenReadLaidOut : (cs : List Child) → ChildrenReadLaidOut cs
  | [] => childrenReadLaidOut_nil
  | c :: cs => childrenReadLaidOut_cons (childReadsLaidOut c) (childrenReadLaidOut cs)

end

theorem reads_document {n : Node} (htags : n.WellTagged) (hfloats : n.FloatsFinite)
    {before text after : List Char} (hbefore : Trivia before) (htext : n.LaidOut text)
    (hafter : LastTrivia after) {fuel : Nat} (hfuel : 3 * text.length ≤ fuel) :
    Reads (readDocument fuel) (before ++ (text ++ after)) [] n := by
  have hread := nodeReadsLaidOut n htags hfloats text htext fuel hfuel
  have hbegin : Reads skipTrivia before (text ++ after ++ []) () := by
    obtain ⟨first, tail, hhead, hfirst, -⟩ := head_of_laidOut (.node htext)
    rw [hhead]
    exact reads_trivia hbefore hfirst _
  have hend : Reads (do
      skipTrivia
      let cursor ← get
      if cursor.rest ≠ [] then throw (.trailingInput cursor.offset)
      return n) (after ++ []) [] n :=
    (reads_lastTrivia hafter).bind (reads_get fun offset => reads_pure [] n)
  rw [List.append_nil] at hend
  exact hbegin.bind ((hread (after ++ [])).bind hend)

theorem parse_laidOut {n : Node} (htags : n.WellTagged) (hfloats : n.FloatsFinite)
    {before text after : List Char} (hbefore : Trivia before) (htext : n.LaidOut text)
    (hafter : LastTrivia after) : parse (String.ofList (before ++ (text ++ after))) = .ok n := by
  rw [outcome_parse, String.toList_ofList]
  have hfuel : 3 * text.length ≤ 3 * (before ++ (text ++ after)).length + 3 := by
    simp only [List.length_append]
    omega
  have hread := reads_document htags hfloats hbefore htext hafter hfuel 0
  rw [List.append_nil] at hread
  rw [hread]

/-- The reader ignores layout: a tree with proper tags and finite numbers is read from each of its
layouts, one of which is its text, and with trivia on both sides, where the end of the text may end
a comment. -/
theorem parse_eq_of_layout (n : Node) (htags : n.WellTagged) (hfloats : n.FloatsFinite) :
    n.LaidOut n.text.toList ∧ parse n.text = .ok n ∧
      ∀ before text after, Trivia before → n.LaidOut text → LastTrivia after →
        parse (String.ofList (before ++ (text ++ after))) = .ok n := by
  have htext := Node.laidOut_text n
  refine ⟨htext, ?_, fun before text after => parse_laidOut htags hfloats⟩
  have hparse := parse_laidOut htags hfloats .nothing htext (.closed .nothing)
  rwa [List.nil_append, List.append_nil, String.ofList_toList] at hparse

/-- `puts("hi")` with a location and written parentheses. -/
def callWithLocation : Node :=
  .mk .send [.nil, .sym "puts", .node (.new .str [.str "hi"])] (some ⟨1, 0, true⟩)

/-- A comment behind a location, one that looks like the start of a string, and one that the text
ends. -/
theorem parse_eq_of_layout_comments :
    callWithLocation.WellTagged ∧ callWithLocation.FloatsFinite ∧
      parse "(send@1:0() nil :puts (str \"hi\"))" = .ok callWithLocation ∧
      parse ",#(\n(send@1:0()#)\nnil :puts,\u2003(str \"hi\"#\"\n))#)" = .ok callWithLocation := by
  have htags : callWithLocation.WellTagged := by decide +kernel
  have hfloats : callWithLocation.FloatsFinite := by decide +kernel
  have hcomment : ∀ c, c ≠ '\n' → Trivia ['#', c, '\n'] := fun c hc =>
    have hword : '\n' ∉ [c] := by simpa using hc.symm
    .comment hword .nothing
  have hgap : Trivia [',', '\u2003'] := .blank (.inr rfl) (.blank (.inl (by decide)) .nothing)
  -- The string, the symbol and `nil` have one layout each.
  have hstring : Node.LaidOut (.new .str [.str "hi"]) _ :=
    .mk (.cons trivia_space (by decide) (.leaf (by simp)) .nil) (hcomment '"' (by decide))
  have hnode : callWithLocation.LaidOut _ :=
    .mk (.cons (hcomment ')' (by decide)) (by decide) (.leaf (by simp))
      (.cons trivia_space (by decide) (.leaf (by simp))
        (.cons hgap (by decide) (.node hstring) .nil))) .nothing
  obtain ⟨-, htext, hlayout⟩ := parse_eq_of_layout callWithLocation htags hfloats
  have hword : '\n' ∉ [')'] := by decide
  have hread := hlayout _ _ _
    (.blank (.inr rfl) (hcomment '(' (by decide))) hnode (.unclosed .nothing hword)
  exact ⟨htags, hfloats, (congrArg parse (by decide +kernel)).trans htext,
    (congrArg parse (by decide +kernel)).trans hread⟩

end Sexp

end RubyScript
