import RankedGrammar.Proofs.Grammar.Shape
import RankedGrammar.Proofs.Grammar.Valid
import RankedGrammar.Proofs.Match.Collapsed
import RankedGrammar.Proofs.Tree.Ascending
import RankedGrammar.Proofs.Tree.Value

/-!
Collapsed trees as derivation trees. Where the rules of a language have a shape, the children of a
node of the collapsed tree of a valid run are a word of its production, and the node holds the text
of its span.
-/
namespace RankedGrammar
open Phrase (Word)

namespace Tree

def parts (t : Tree) (id : NodeId) : List Part := (t.node id).children.map fun c => (t.node c).part

namespace WellFormed

variable {t : Tree} {shape : Shape}

/-- All nodes below a node of a collapsed tree were below it before. -/
theorem reaches_of_collapse (h : t.WellFormed) (hrole : (t.node root).role.isTransient = false)
    {a d : Nat} (ha : t.collapse.1.Reaches root a) (hd : t.collapse.1.Reaches a d) :
    t.Reaches a d := by
  have hmem := (h.wellFormed_collapse hrole).mem_preorder_branch.2 hd
  exact h.mem_preorder_branch.1 ((h.sublist_collapse hrole ha).subset hmem)

/-- A collapse moves no node in the source. -/
theorem span_collapse (h : t.WellFormed) (hrole : (t.node root).role.isTransient = false)
    (j : Nat) : (t.collapse.1.node j).start = (t.node j).start ∧
      (t.collapse.1.node j).point = (t.node j).point :=
  ⟨apply_node_collapse Node.start (fun _ _ _ _ _ _ => rfl) h hrole j,
    apply_node_collapse Node.point (fun _ _ _ _ _ _ => rfl) h hrole j⟩

theorem name_root_collapse (h : t.WellFormed) (hrole : (t.node root).role.isTransient = false) :
    (t.collapse.1.node root).name = (t.node root).name := by
  have hentries := h.entries_collapse hrole
  rw [(h.wellFormed_collapse hrole).entries_eq, h.collapsed_entries_root hrole] at hentries
  have hnode : t.collapse.1.node root = t.settled none root :=
    congrArg (fun b => b.label.2) hentries
  have hname : (t.settled none root).name = (t.node root).asTerminal.name := rfl
  rw [hnode, hname, Node.asTerminal_of_not_transient hrole]

theorem stop_le_iff (h : t.WellFormed) {id k : Nat} :
    t.stop id ≤ k ↔ ∀ d, t.Reaches id d → (t.node d).point ≤ k := by
  rw [h.stop_eq, Sprout.stop_le_iff, h.preorder_sprout, List.forall_mem_map]
  exact forall_congr' fun d => by rw [h.mem_descendants]; rfl

/-- A node that goes as far as all below it does so after a collapse. -/
theorem stop_collapse (h : t.WellFormed) (hrole : (t.node root).role.isTransient = false) {d : Nat}
    (hd : t.collapse.1.Reaches root d) (hstop : t.stop d = (t.node d).point) :
    t.collapse.1.stop d = (t.node d).point := by
  have hwf' := h.wellFormed_collapse hrole
  apply Nat.le_antisymm
  · refine hwf'.stop_le_iff.2 fun e he => ?_
    rw [(h.span_collapse hrole e).2]
    exact h.stop_le_iff.1 (Nat.le_of_eq hstop) e (h.reaches_of_collapse hrole hd he)
  · rw [← (h.span_collapse hrole d).2]
    exact hwf'.stop_le_iff.1 (Nat.le_refl _) d .refl

theorem shaped_of_reaches (h : t.WellFormed) {a d : Nat} (ha : (t.sprout a).Shaped shape)
    (hd : t.Reaches a d) : (t.sprout d).Shaped shape :=
  h.sprout_of_reaches Sprout.Shaped.forall_branches ha hd

/-- What a shape says of a node in the table. -/
theorem cases_of_shaped (h : t.WellFormed) {id : Nat} (hid : (t.sprout id).Shaped shape) :
    ((t.node id).role = .plain ∧ (t.node id).name ∈ shape.names ∧
        Word (shape.production (t.node id).name)
          (Sprout.partsAll ((t.node id).children.map t.sprout))) ∨
      (∃ text, (t.node id).role = .literal text ∧ (t.node id).literal = some text ∧
        (t.node id).children = []) ∨
      ∃ caption, (t.node id).role = .wrapper caption ∧ (t.node id).literal = none := by
  rw [h.sprout_eq] at hid
  generalize hbs : (t.node id).children.map t.sprout = bs at hid ⊢
  cases hid with
  | plain hrole hname hword _ => exact .inl ⟨hrole, hname, hword⟩
  | literal hrole htext => exact .inr (.inl ⟨_, hrole, htext, List.map_eq_nil_iff.1 hbs⟩)
  | wrapper hrole hnone _ => exact .inr (.inr ⟨_, hrole, hnone⟩)

theorem part_settled_plain {parent : Option NodeId} {id : NodeId}
    (hrole : (t.node id).role = .plain) (hname : (t.node id).name ≠ terminalName) :
    (t.settled parent id).name = (t.node id).name ∧
      (t.settled parent id).part = .node (t.node id).name := by
  have hsettled : (t.settled parent id).name = (t.node id).name := by
    show (t.node id).asTerminal.name = (t.node id).name
    rw [Node.asTerminal, hrole]
  rw [Node.part, hsettled, if_neg hname]
  exact ⟨rfl, rfl⟩

theorem part_settled_literal {parent : Option NodeId} {id : NodeId} {text : String}
    (hrole : (t.node id).role = .literal text) (htext : (t.node id).literal = some text)
    (hchildren : (t.node id).children = []) :
    (t.settled parent id).name = terminalName ∧
      (t.settled parent id).part = .terminal text := by
  have hname : (t.settled parent id).name = terminalName := by
    show (t.node id).asTerminal.name = terminalName
    rw [Node.asTerminal, hrole]
  have hliteral : (t.settled parent id).literal = some text := by
    show joinRecorded (t.node id).literal _ = some text
    rw [htext, hchildren]
    rfl
  rw [Node.part, hname, if_pos rfl, hliteral]
  exact ⟨rfl, rfl⟩

theorem parts_standInsBelow {parent id : Nat}
    (hchildren : ∀ c ∈ (t.node id).children,
      ((t.entries c).standIns parent).map (fun b => b.label.2.part) = (t.sprout c).parts) :
    (t.standInsBelow parent id).map (fun b => b.label.2.part) =
      Sprout.partsAll ((t.node id).children.map t.sprout) := by
  rw [standInsBelow, Branch.standInsAll_eq, List.flatMap_map, List.map_flatMap, Sprout.partsAll_eq,
    List.flatMap_map]
  exact List.flatMap_congr hchildren

/-- What stands for a node in the collapsed tree is what its sprout comes to. -/
theorem parts_standIns (h : t.WellFormed) (hnames : terminalName ∉ shape.names) {id : Nat}
    (hid : (t.sprout id).Shaped shape) (parent : NodeId) :
    ((t.entries id).standIns parent).map (fun b => b.label.2.part) = (t.sprout id).parts := by
  induction id using h.induct generalizing parent with
  | step id ih =>
    have hbelow : ∀ c ∈ (t.node id).children, (t.sprout c).Shaped shape :=
      fun c hc => h.shaped_of_reaches hid (.single hc)
    have hcases := h.cases_of_shaped hid
    rw [h.standIns_entries, h.sprout_eq]
    obtain ⟨hrole, hname, -⟩ | ⟨text, hrole, htext, hchildren⟩ | ⟨caption, hrole, -⟩ := hcases
    · have hw : (t.node id).role.isWrapper = false := congrArg Role.isWrapper hrole
      have hne : (t.node id).name ≠ terminalName := fun heq => hnames (heq ▸ hname)
      rw [Sprout.parts_plain (n := (t.node id).bare) hrole, hw, if_neg Bool.false_ne_true]
      exact congrArg (fun x => [x]) (part_settled_plain hrole hne).2
    · have hw : (t.node id).role.isWrapper = false := congrArg Role.isWrapper hrole
      rw [Sprout.parts_literal (n := (t.node id).bare) hrole, hw, if_neg Bool.false_ne_true]
      exact congrArg (fun x => [x]) (part_settled_literal hrole htext hchildren).2
    · have hw : (t.node id).role.isWrapper = true := congrArg Role.isWrapper hrole
      rw [Sprout.parts_wrapper (n := (t.node id).bare) hrole, hw, if_pos rfl]
      exact parts_standInsBelow fun c hc => ih c hc (hbelow c hc) parent

/-- The children of a node of a collapsed tree are a word of its production, and only terminals come
beside the nodes that have one. -/
theorem parts_collapse (h : t.WellFormed) (hrole : (t.node root).role.isTransient = false)
    (hnames : terminalName ∉ shape.names) (hroot : (t.sprout root).Shaped shape) {d : Nat}
    (hd : t.collapse.1.Reaches root d) :
    (t.collapse.1.node d).name ∈ shape.names ∧
        Word (shape.production (t.collapse.1.node d).name) (t.collapse.1.parts d) ∨
      (t.collapse.1.node d).name = terminalName ∧ t.collapse.1.parts d = [] := by
  have hwf' := h.wellFormed_collapse hrole
  have hshaped := h.shaped_of_reaches hroot (h.reaches_of_collapse hrole .refl hd)
  obtain ⟨parent, hentries⟩ := h.exists_entries_collapse hrole hd
  rw [hwf'.entries_eq] at hentries
  have hnode : t.collapse.1.node d = t.settled parent d :=
    congrArg (fun b => b.label.2) hentries
  have hparts : t.collapse.1.parts d = Sprout.partsAll ((t.node d).children.map t.sprout) := by
    have hchildren : (t.collapse.1.node d).children.map t.collapse.1.entries =
        t.standInsBelow d d := congrArg Branch.branches hentries
    rw [← parts_standInsBelow fun c hc =>
      h.parts_standIns hnames (h.shaped_of_reaches hshaped (.single hc)) d, ← hchildren,
      List.map_map]
    refine List.map_congr_left fun c _ => ?_
    rw [Function.comp_apply, hwf'.entries_eq]
    rfl
  have hclean := (h.collapse_spec hrole).2.2 d hd
  rw [hnode] at hclean
  rw [hparts, hnode]
  obtain ⟨hplain, hname, hword⟩ | ⟨text, hliteral, htext, hchildren⟩ | ⟨caption, hwrapper, -⟩ :=
    h.cases_of_shaped hshaped
  · have hne : (t.node d).name ≠ terminalName := fun heq => hnames (heq ▸ hname)
    rw [(part_settled_plain hplain hne).1]
    exact .inl ⟨hname, hword⟩
  · rw [hchildren]
    exact .inr ⟨(part_settled_literal hliteral htext hchildren).1, rfl⟩
  · have hsettled : (t.settled parent d).role = (t.node d).asTerminal.role := rfl
    rw [hsettled, Node.asTerminal, hwrapper] at hclean
    rw [hwrapper] at hclean
    cases hclean

/-- The wrappers that are opened have no text. -/
theorem text_of_mem_pieces (h : t.WellFormed) {id : Nat} (hid : (t.sprout id).Shaped shape)
    {text : String} (hmem : .opened text ∈ t.pieces id) : text = "" := by
  induction id using h.induct with
  | step id ih =>
    rw [pieces_eq] at hmem
    obtain ⟨c, hc, hmem⟩ := List.mem_flatMap.1 hmem
    have hshaped := h.shaped_of_reaches hid (.single hc)
    have hbelow := ih c hc hshaped
    rw [h.pieces_entries] at hmem
    obtain ⟨hrole, -⟩ | ⟨text, hrole, -⟩ | ⟨caption, hrole, hnone⟩ := h.cases_of_shaped hshaped
    · have hw : (t.node c).role.isWrapper = false := congrArg Role.isWrapper hrole
      rw [hw, if_neg Bool.false_ne_true] at hmem
      cases List.mem_singleton.1 hmem
    · have hw : (t.node c).role.isWrapper = false := congrArg Role.isWrapper hrole
      rw [hw, if_neg Bool.false_ne_true] at hmem
      cases List.mem_singleton.1 hmem
    · have hw : (t.node c).role.isWrapper = true := congrArg Role.isWrapper hrole
      have htext : (t.node c).literal.getD "" = "" := congrArg (fun l => l.getD "") hnone
      rw [hw, if_pos rfl, htext] at hmem
      cases List.mem_cons.1 hmem with
      | inl heq => exact Piece.opened.inj heq
      | inr hmem => exact hbelow hmem

/-- So a collapse changes no value. -/
theorem value_collapse_of_shaped (h : t.WellFormed)
    (hrole : (t.node root).role.isTransient = false) (hroot : (t.sprout root).Shaped shape)
    {d : Nat} (hd : t.collapse.1.Reaches root d) : t.collapse.1.value d = t.value d := by
  have hwf' := h.wellFormed_collapse hrole
  refine (h.forall_value_collapse_iff hrole).2 (fun a ha => ?_) d (hwf'.mem_reachable.2 hd)
  have hreach := h.reaches_of_collapse hrole .refl (hwf'.mem_reachable.1 ha)
  have hshaped := h.shaped_of_reaches hroot hreach
  apply Piece.join_eq_sorted
  apply List.pairwise_of_forall_mem_list
  intro x _ y hy
  cases x with
  | opened text => trivial
  | kept id =>
    cases y with
    | opened text => exact .inr (h.text_of_mem_pieces hshaped hy)
    | kept other => trivial

end WellFormed

end Tree

/-- The trees of the statement language. Operators, tokens, blanks and the end have no children. -/
def Shape.statements : Shape where
  names := ["SCRIPT", "STATEMENT", "ASSIGNMENT", "VARIABLE", "EXPRESSION", "TERM", "PERCENTAGE",
    "GROUP", "CALL", "ARGUMENTS", "OPERATOR", "STATEMENT_END", "WHITESPACE", "IDENT", "NUMBER",
    "STRING_LIT", "COLOR_HASH", "EOF", blankName]
  production
    | "SCRIPT" => .seq [.many (.symbol "STATEMENT"), .symbol "WHITESPACE", .symbol "EOF"]
    | "STATEMENT" => .seq [.symbol "WHITESPACE", .oneOf [.symbol "ASSIGNMENT", .symbol "CALL"],
        .symbol "WHITESPACE", .symbol "STATEMENT_END"]
    | "ASSIGNMENT" => .seq [.symbol "VARIABLE", .symbol "WHITESPACE", .text "=",
        .symbol "WHITESPACE", .symbol "EXPRESSION"]
    | "VARIABLE" => .seq [.text "$", .symbol "IDENT"]
    | "EXPRESSION" => .seq [.symbol "TERM", .many (.seq [.symbol "WHITESPACE", .symbol "OPERATOR",
        .symbol "WHITESPACE", .symbol "TERM"])]
    | "TERM" => .oneOf [.symbol "PERCENTAGE", .symbol "NUMBER", .symbol "STRING_LIT",
        .symbol "COLOR_HASH", .symbol "CALL", .symbol "VARIABLE", .symbol "GROUP"]
    | "PERCENTAGE" => .seq [.symbol "NUMBER", .text "%"]
    | "GROUP" => .seq [.text "(", .symbol "WHITESPACE", .symbol "EXPRESSION", .symbol "WHITESPACE",
        .text ")"]
    | "CALL" => .seq [.symbol "IDENT", .text "(", .symbol "WHITESPACE",
        .oneOf [.symbol "ARGUMENTS", .symbol blankName], .symbol "WHITESPACE", .text ")"]
    | "ARGUMENTS" => .seq [.symbol "EXPRESSION", .many (.seq [.symbol "WHITESPACE", .text ",",
        .symbol "WHITESPACE", .symbol "EXPRESSION"])]
    | _ => .seq []

namespace Language

theorem leaf_of_statements (i : Nat) {name : String} {body : Expr}
    (h : (statementTable ++ Tokens.table)[i]? = some (name, body)) (hbody : body.Leaf)
    (hword : Shape.statements.production name = .seq []) :
    ∃ body, statements.index.rule? name = some body ∧
      (body.Leaf ∧ Word (Shape.statements.production name) [] ∨
        body.Lays statements.index Shape.statements (Shape.statements.production name)) :=
  ⟨body, rule?_statements i h, .inl ⟨hbody, hword ▸ .nil⟩⟩

/-- The rules lay out their children as the productions say, and those of the tails do so where they
are called. -/
theorem laysOut_statements : statements.index.LaysOut Shape.statements := by
  have hlit : statements.index.rule? literalName = some .attached := rule?_statements 15 rfl
  have href : ∀ name ∈ Shape.statements.names,
      (Expr.ref name).Lays statements.index Shape.statements (.symbol name) := fun _ => .ref
  have htext : ∀ t, t ≠ "" → (Expr.lit t).Lays statements.index Shape.statements (.text t) :=
    fun _ => .lit hlit
  have hblanks := href "WHITESPACE" (by decide)
  have hexpression := href "EXPRESSION" (by decide)
  intro name hname
  simp only [Shape.statements, List.mem_cons, List.not_mem_nil, or_false] at hname
  rcases hname with rfl | rfl | rfl | rfl | rfl | rfl | rfl | rfl | rfl | rfl | rfl | rfl | rfl |
    rfl | rfl | rfl | rfl | rfl | rfl
  · exact ⟨_, rule?_statements 0 rfl, .inr (.cons (.many (href "STATEMENT" (by decide)))
      (.cons hblanks (.cons (href "EOF" (by decide)) .nil)))⟩
  · have hchoice : (Expr.alt [.ref "ASSIGNMENT", .ref "CALL"]).Lays statements.index
        Shape.statements (.oneOf [.symbol "ASSIGNMENT", .symbol "CALL"]) := by
      apply Expr.Lays.alt
      intro e he
      rcases List.mem_pair.1 he with rfl | rfl
      · exact .oneOf (by simp) (href "ASSIGNMENT" (by decide))
      · exact .oneOf (by simp) (href "CALL" (by decide))
    exact ⟨_, rule?_statements 1 rfl, .inr (.cons hblanks (.cons hchoice (.cons hblanks
      (.cons (href "STATEMENT_END" (by decide)) .nil))))⟩
  · exact ⟨_, rule?_statements 2 rfl, .inr (.cons (href "VARIABLE" (by decide)) (.cons hblanks
      (.cons (htext "=" (by decide)) (.cons hblanks (.cons hexpression .nil)))))⟩
  · exact ⟨_, rule?_statements 3 rfl, .inr (.cons (htext "$" (by decide))
      (.cons (href "IDENT" (by decide)) .nil))⟩
  · have htail := Expr.Lays.named "OPERATOR TERM"
      (rule?_statements 5 rfl) (.cons hblanks (.cons (href "OPERATOR" (by decide))
        (.cons hblanks (.cons (href "TERM" (by decide)) .nil))))
    exact ⟨_, rule?_statements 4 rfl, .inr (.cons (href "TERM" (by decide))
      (.cons (.many htail) .nil))⟩
  · refine ⟨_, rule?_statements 6 rfl, .inr (.alt ?_)⟩
    intro e he
    simp only [List.mem_cons, List.not_mem_nil, or_false] at he
    rcases he with rfl | rfl | rfl | rfl | rfl | rfl | rfl
    · exact .oneOf (by simp) (href "PERCENTAGE" (by decide))
    · exact .oneOf (by simp) (href "NUMBER" (by decide))
    · exact .oneOf (by simp) (href "STRING_LIT" (by decide))
    · exact .oneOf (by simp) (href "COLOR_HASH" (by decide))
    · exact .oneOf (by simp) (href "CALL" (by decide))
    · exact .oneOf (by simp) (href "VARIABLE" (by decide))
    · exact .oneOf (by simp) (href "GROUP" (by decide))
  · exact ⟨_, rule?_statements 7 rfl, .inr (.cons (href "NUMBER" (by decide))
      (.cons (htext "%" (by decide)) .nil))⟩
  · exact ⟨_, rule?_statements 8 rfl, .inr (.cons (htext "(" (by decide)) (.cons hblanks
      (.cons hexpression (.cons hblanks (.cons (htext ")" (by decide)) .nil)))))⟩
  · have hopt : (Expr.opt (.ref "ARGUMENTS")).Lays statements.index Shape.statements
        (.oneOf [.symbol "ARGUMENTS", .symbol blankName]) := by
      apply Expr.Lays.alt
      intro e he
      rcases List.mem_pair.1 he with rfl | rfl
      · exact .oneOf (by simp) (href "ARGUMENTS" (by decide))
      · exact .oneOf (by simp) (href blankName (by decide))
    exact ⟨_, rule?_statements 9 rfl, .inr (.cons (href "IDENT" (by decide))
      (.cons (htext "(" (by decide)) (.cons hblanks (.cons hopt (.cons hblanks
        (.cons (htext ")" (by decide)) .nil))))))⟩
  · have htail := Expr.Lays.named "\",\" EXPRESSION"
      (rule?_statements 11 rfl) (.cons hblanks (.cons (htext "," (by decide))
        (.cons hblanks (.cons hexpression .nil))))
    exact ⟨_, rule?_statements 10 rfl, .inr (.cons hexpression (.cons (.many htail) .nil))⟩
  · exact leaf_of_statements 12 rfl (.byte (ByteClass.ascii_of_ranges (by decide))) rfl
  · exact leaf_of_statements 13 rfl (.byte (ByteClass.ascii_of_ranges (by decide))) rfl
  · exact leaf_of_statements 19 rfl (.bytes (ByteClass.ascii_of_ranges (by decide)).whole 0) rfl
  · exact leaf_of_statements 22 rfl (.pattern _) rfl
  · exact leaf_of_statements 23 rfl (.pattern _) rfl
  · exact leaf_of_statements 24 rfl (.pattern _) rfl
  · exact leaf_of_statements 25 rfl (.pattern _) rfl
  · exact leaf_of_statements 16 rfl .atEnd rfl
  · exact leaf_of_statements 14 rfl (.const true) rfl

end Language

namespace Context

variable {ctx : Context} {shape : Shape} {rule : String} {p : RawParse}

/-- A run is a call of its rule at the start of the source. -/
theorem shaped_of_rawParse (hlexical : ctx.rules.Lexical) (hrules : ctx.rules.LaysOut shape)
    (hrule : rule ∈ shape.names) (h : ctx.rawParse rule = .ok p) (hvalid : p.valid = true) :
    (p.tree.sprout Tree.root).Shaped shape := by
  have hgrow := grow_valid_of_rawParse hlexical h
  rw [hvalid] at hgrow
  have hlays : (Expr.ref rule).Lays ctx.rules shape (.symbol rule) := .ref hrule
  obtain ⟨new, hnew, -, hshaped⟩ := hlays.laysOut hlexical hrules ctx.limit
    (Growth.seed ctx (.ref rule) 0) _ ctx.source.tail?_zero (Growth.call_eq hgrow)
  have hnew : [p.tree.sprout Tree.root] = new := hnew
  exact hshaped _ (hnew ▸ List.mem_singleton.2 rfl)

/-- In the collapsed tree of a valid run the children of the nodes are words of their productions,
and every node holds the text of its span. -/
theorem derivation_of_rawParse (hlexical : ctx.rules.Lexical) (hrules : ctx.rules.LaysOut shape)
    (hnames : terminalName ∉ shape.names) (hrule : rule ∈ shape.names)
    (h : ctx.rawParse rule = .ok p) (hvalid : p.valid = true) {d : Nat}
    (hd : d ∈ p.tree.collapse.1.reachable) :
    ((p.tree.collapse.1.node d).name ∈ shape.names ∧
          Word (shape.production (p.tree.collapse.1.node d).name) (p.tree.collapse.1.parts d) ∨
        (p.tree.collapse.1.node d).name = terminalName ∧ p.tree.collapse.1.parts d = []) ∧
      ctx.source.slice? (p.tree.collapse.1.node d).start (p.tree.collapse.1.stop d) =
        some (p.tree.collapse.1.value d) := by
  have hwf := wellFormed_of_rawParse h
  have hrole := role_root_of_rawParse h
  have hroot := shaped_of_rawParse hlexical hrules hrule h hvalid
  have hreach := (hwf.wellFormed_collapse hrole).mem_reachable.1 hd
  have hreach' := hwf.reaches_of_collapse hrole .refl hreach
  refine ⟨hwf.parts_collapse hrole hnames hroot hreach, ?_⟩
  obtain ⟨hstop, hslice⟩ :=
    hwf.text_of_exact (hwf.exact_of_reaches (exact_of_rawParse hlexical h hvalid) hreach')
  rw [(hwf.span_collapse hrole d).1, hwf.stop_collapse hrole hreach hstop,
    hwf.value_collapse_of_shaped hrole hroot hreach]
  exact hslice

/-- The last part of a script is the end of the source. -/
theorem value_of_script {source : Source} {limit : Nat}
    (h : (Context.statements source limit).rawParse "SCRIPT" = .ok p) (hvalid : p.valid = true) :
    p.tree.value Tree.root = source.text := by
  have hwf := wellFormed_of_rawParse h
  have hgrow := grow_valid_of_rawParse Symbol.lexical_statements h
  rw [hvalid] at hgrow
  have hsize := size_le_of_script (b := Growth.seed (.statements source limit) (.ref "SCRIPT") 0)
    (Growth.call_eq hgrow)
  have hspells := (exact_of_rawParse Symbol.lexical_statements h hvalid).spells
  have hstart : (p.tree.sprout Tree.root).label.start = 0 := by
    rw [hwf.sprout_eq]
    exact (origin_root_of_rawParse h).start
  rw [hstart] at hspells
  rw [hwf.value_eq, ← String.toList_inj, ← source.chars_eq]
  exact hspells.eq_chars hsize

/-- The collapsed tree of a valid source is a derivation tree of it in the language of statements:
the root is a script, the children of every node, terminals with their texts, are a word of its
production, every node holds the text of its span, and the root holds the whole source. -/
theorem derivation_of_parse (source : Source) (limit : Nat) (p : Parse)
    (h : parse { source, rules := Language.statements.index, limit } "SCRIPT" true = .ok p)
    (hvalid : p.valid = true) :
    (p.tree.node Tree.root).name = "SCRIPT" ∧
      (∀ d ∈ p.tree.reachable,
        Word (Shape.statements.production (p.tree.node d).name) (p.tree.parts d) ∧
          source.slice? (p.tree.node d).start (p.tree.stop d) = some (p.tree.value d)) ∧
      p.value = source.text := by
  have hnames : terminalName ∉ Shape.statements.names := by decide
  have hscript : "SCRIPT" ∈ Shape.statements.names := by decide
  obtain ⟨q, hraw, rfl⟩ := parse_eq_ok h
  have hwf := wellFormed_of_rawParse hraw
  have hrole := role_root_of_rawParse hraw
  have hroot := shaped_of_rawParse Symbol.lexical_statements Language.laysOut_statements hscript
    hraw hvalid
  refine ⟨?_, fun d hd => ?_, ?_⟩
  · exact (hwf.name_root_collapse hrole).trans (origin_root_of_rawParse hraw).name
  · obtain ⟨hword, hslice⟩ := derivation_of_rawParse Symbol.lexical_statements
      Language.laysOut_statements hnames hscript hraw hvalid hd
    refine ⟨?_, hslice⟩
    obtain ⟨-, hword⟩ | ⟨hname, hparts⟩ := hword
    · exact hword
    · have hleaf : Shape.statements.production terminalName = .seq [] := rfl
      show Word (Shape.statements.production (q.tree.collapse.1.node d).name)
        (q.tree.collapse.1.parts d)
      rw [hname, hleaf, hparts]
      exact .nil
  · exact (hwf.value_collapse_of_shaped hrole hroot .refl).trans (value_of_script hraw hvalid)

/-- The sum in parentheses is a term of its own, and the tails of both expressions are gone. -/
theorem derivation_of_parse_percentage : ∃ p,
    parse { source := .ofString "$a = 50% * (2 + $b);", rules := Language.statements.index }
        "SCRIPT" true = .ok p ∧
      p.valid = true ∧ p.counts = ⟨2, 6⟩ ∧
      (∀ d ∈ p.tree.reachable,
        Word (Shape.statements.production (p.tree.node d).name) (p.tree.parts d)) ∧
      p.value = "$a = 50% * (2 + $b);" := by
  let ctx : Context :=
    { source := .ofString "$a = 50% * (2 + $b);", rules := Language.statements.index }
  have hrun : (ctx.parse "SCRIPT" true).toOption.map (fun p =>
      decide (p.valid = true ∧ p.counts = ⟨2, 6⟩)) = some true := by decide +kernel
  cases hp : ctx.parse "SCRIPT" true with
  | error e =>
    rw [hp] at hrun
    cases hrun
  | ok p =>
    rw [hp] at hrun
    obtain ⟨hvalid, hcounts⟩ := of_decide_eq_true (Option.some.inj hrun)
    obtain ⟨-, hderives, hvalue⟩ := derivation_of_parse ctx.source ctx.limit p hp hvalid
    have hwords := fun d hd => (hderives d hd).1
    have htext : p.value = "$a = 50% * (2 + $b);" := hvalue.trans (Source.text_ofString _)
    exact ⟨p, rfl, hvalid, hcounts, hwords, htext⟩

end Context

end RankedGrammar
