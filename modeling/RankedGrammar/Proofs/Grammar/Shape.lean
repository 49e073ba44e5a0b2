import RankedGrammar.Proofs.Grammar.Rendering
import RankedGrammar.Proofs.Match.Lexeme

/-!
The shape of trees. A body that calls other rules lays out its children as a phrase over the names
of rules says; a literal counts as its text and a wrapper as the children that it has itself, which
are what the collapse of the tree makes of them.
-/
namespace RankedGrammar
open Text (byteLength)

/-- A child as the production of its parent has it. -/
inductive Part where
  | node (name : String)
  | terminal (text : String)
deriving DecidableEq

/-- What a node of a collapsed tree is for its parent. -/
def Node.part (n : Node) : Part :=
  if n.name = terminalName then .terminal (n.literal.getD "") else .node n.name

/-- The lists of children that a phrase over names of nodes allows. -/
inductive Phrase.Word : Phrase String → List Part → Prop where
  | symbol (name : String) : Word (.symbol name) [.node name]
  | text (t : String) : Word (.text t) [.terminal t]
  | nil : Word (.seq []) []
  | cons {p : Phrase String} {ps : List (Phrase String)} {xs ys : List Part} (h : Word p xs)
      (hs : Word (.seq ps) ys) : Word (.seq (p :: ps)) (xs ++ ys)
  | oneOf {p : Phrase String} {ps : List (Phrase String)} {xs : List Part} (hp : p ∈ ps)
      (h : Word p xs) : Word (.oneOf ps) xs
  | none (p : Phrase String) : Word (.many p) []
  | more {p : Phrase String} {xs ys : List Part} (h : Word p xs) (hs : Word (.many p) ys) :
      Word (.many p) (xs ++ ys)

open Phrase (Word)

/-- The names of the nodes of collapsed trees, terminals apart, with a production for each. -/
structure Shape where
  names : List String
  production : String → Phrase String

namespace Sprout

mutual

/-- What a branch comes to, for its parent, when the tree is collapsed. -/
def parts : Sprout → List Part
  | .mk n bs =>
    match n.role with
    | .wrapper _ => partsAll bs
    | .literal text => [.terminal text]
    | _ => [.node n.name]

def partsAll : List Sprout → List Part
  | [] => []
  | b :: bs => b.parts ++ partsAll bs

end

theorem partsAll_eq (bs : List Sprout) : partsAll bs = bs.flatMap parts := by
  induction bs with
  | nil => rfl
  | cons b bs ih => rw [partsAll, ih, List.flatMap_cons]

theorem partsAll_append (bs cs : List Sprout) :
    partsAll (bs ++ cs) = partsAll bs ++ partsAll cs := by
  simp only [partsAll_eq, List.flatMap_append]

section

variable {n : Node} {bs : List Sprout}

theorem parts_plain (h : n.role = .plain) : parts (.mk n bs) = [.node n.name] := by
  rw [parts, h]

theorem parts_literal {text : String} (h : n.role = .literal text) :
    parts (.mk n bs) = [.terminal text] := by
  rw [parts, h]

theorem parts_wrapper {caption : String} (h : n.role = .wrapper caption) :
    parts (.mk n bs) = partsAll bs := by
  rw [parts, h]

end

/-- Everywhere in the sprout the branches of a node come to a word of its production, literals have
taken their texts and no more, and wrappers have taken nothing by themselves. -/
inductive Shaped (shape : Shape) : Sprout → Prop where
  | plain {n : Node} {bs : List Sprout} (hrole : n.role = .plain) (hname : n.name ∈ shape.names)
      (hword : Word (shape.production n.name) (partsAll bs)) (hbelow : ∀ b ∈ bs, Shaped shape b) :
      Shaped shape (.mk n bs)
  | literal {n : Node} {text : String} (hrole : n.role = .literal text)
      (htext : n.literal = some text) : Shaped shape (.mk n [])
  | wrapper {n : Node} {caption : String} {bs : List Sprout} (hrole : n.role = .wrapper caption)
      (hnone : n.literal = none) (hbelow : ∀ b ∈ bs, Shaped shape b) : Shaped shape (.mk n bs)

theorem Shaped.forall_branches {shape : Shape} {n : Node} {bs : List Sprout}
    (h : Shaped shape (.mk n bs)) : ∀ b ∈ bs, Shaped shape b := by
  cases h with
  | plain _ _ _ hbelow => exact hbelow
  | literal => simp
  | wrapper _ _ hbelow => exact hbelow

/-- The sprout has the shape, and its parts are a word of the phrase. -/
def Fits (shape : Shape) (p : Phrase String) (b : Sprout) : Prop :=
  Word p b.parts ∧ b.Shaped shape

section

variable {shape : Shape} {p : Phrase String} {n : Node} {bs : List Sprout}

theorem fits_plain (hrole : n.role = .plain) (hname : n.name ∈ shape.names)
    (hword : Word (shape.production n.name) (partsAll bs)) (hbelow : ∀ b ∈ bs, Shaped shape b) :
    Fits shape (.symbol n.name) (.mk n bs) := by
  refine ⟨?_, .plain hrole hname hword hbelow⟩
  rw [parts_plain hrole]
  exact .symbol n.name

theorem fits_literal {text : String} (hrole : n.role = .literal text)
    (htext : n.literal = some text) : Fits shape (.text text) (.mk n []) := by
  refine ⟨?_, .literal hrole htext⟩
  rw [parts_literal hrole]
  exact .text text

theorem fits_wrapper {caption : String} (hrole : n.role = .wrapper caption)
    (hnone : n.literal = none) (hword : Word p (partsAll bs)) (hbelow : ∀ b ∈ bs, Shaped shape b) :
    Fits shape p (.mk n bs) := by
  refine ⟨?_, .wrapper hrole hnone hbelow⟩
  rw [parts_wrapper hrole]
  exact hword

end

end Sprout

/-- The body of a rule lays out children as a phrase says. -/
inductive Expr.Lays (rules : RuleIndex Expr) (shape : Shape) : Expr → Phrase String → Prop where
  | ref {name : String} (h : name ∈ shape.names) : Lays rules shape (.ref name) (.symbol name)
  | named {name : String} (caption : String) {body : Expr} {p : Phrase String}
      (h : rules.rule? name = some body) (hbody : Lays rules shape body p) :
      Lays rules shape (.named name caption) p
  | lit (h : rules.rule? literalName = some .attached) {t : String} (ht : t ≠ "") :
      Lays rules shape (.lit t) (.text t)
  | nil : Lays rules shape (.seq []) (.seq [])
  | cons {e : Expr} {es : List Expr} {p : Phrase String} {ps : List (Phrase String)}
      (h : Lays rules shape e p) (hs : Lays rules shape (.seq es) (.seq ps)) :
      Lays rules shape (.seq (e :: es)) (.seq (p :: ps))
  | alt {es : List Expr} {p : Phrase String} (h : ∀ e ∈ es, Lays rules shape e p) :
      Lays rules shape (.alt es) p
  | oneOf {e : Expr} {p : Phrase String} {ps : List (Phrase String)} (hp : p ∈ ps)
      (h : Lays rules shape e p) : Lays rules shape e (.oneOf ps)
  | many {e : Expr} {p : Phrase String} (h : Lays rules shape e p) :
      Lays rules shape (.many e) (.many p)

/-- The rules of the shape's names have its productions. Rules that take text have no children. -/
def RuleIndex.LaysOut (rules : RuleIndex Expr) (shape : Shape) : Prop :=
  ∀ name ∈ shape.names, ∃ body, rules.rule? name = some body ∧
    (body.Leaf ∧ Word (shape.production name) [] ∨ body.Lays rules shape (shape.production name))

theorem Expr.Lays.composite {rules : RuleIndex Expr} {shape : Shape} {e : Expr}
    {p : Phrase String} (h : e.Lays rules shape p) : e.Composite := by
  induction h with
  | ref => exact .ref _
  | named caption => exact .named _ caption
  | lit => exact .lit _
  | nil => exact .seq (by simp)
  | cons _ _ ih ihs => exact .seq (List.forall_mem_cons.2 ⟨ih, Composite.seq_iff.1 ihs⟩)
  | alt _ ih => exact .alt ih
  | oneOf _ _ ih => exact ih
  | many _ ih => exact .many ih

namespace Growth
open Step (Trial ranked heaviest)

/-- A success adds branches that come to a list of parts with a property. -/
def LaysOut (shape : Shape) (src : Source) (word : List Part → Prop) (g : Growth) : Prop :=
  ∀ b b', (src.tail? b.cursor).isSome → g b = some (true, b') →
    ∃ new, b'.branches = b.branches ++ new ∧ word (Sprout.partsAll new) ∧
      ∀ c ∈ new, Sprout.Shaped shape c

variable {ctx : Context} {shape : Shape} {word first rest : List Part → Prop} {g : Growth}
  {gs : List Growth}

theorem laysOut_sequence_nil (h : word []) : LaysOut shape ctx.source word (sequence []) := by
  intro b b' _ hrun
  cases hrun
  exact ⟨[], (List.append_nil _).symm, h, by simp⟩

theorem laysOut_sequence_cons (hbuilds : Builds ctx g) (hg : LaysOut shape ctx.source first g)
    (hgs : LaysOut shape ctx.source rest (sequence gs))
    (h : ∀ {xs ys}, first xs → rest ys → word (xs ++ ys)) :
    LaysOut shape ctx.source word (sequence (g :: gs)) := by
  intro b b' hb hrun
  obtain ⟨b₁, hfirst, hrest⟩ := exists_of_sequence_cons hrun
  obtain ⟨new, hnew, hword, hshaped⟩ := hg b b₁ hb hfirst
  obtain ⟨new', hnew', hword', hshaped'⟩ :=
    hgs b₁ b' ((hbuilds b true b₁ hb hfirst).tail?_cursor hb) hrest
  refine ⟨new ++ new', by rw [hnew', hnew, List.append_assoc], ?_, ?_⟩
  · rw [Sprout.partsAll_append]
    exact h hword hword'
  · exact List.forall_mem_append.2 ⟨hshaped, hshaped'⟩

theorem laysOut_alternation (hbuilds : ∀ g ∈ gs, Builds ctx g)
    (h : ∀ g ∈ gs, LaysOut shape ctx.source word g) :
    LaysOut shape ctx.source word (alternation gs) := by
  intro b b' hb hrun
  obtain ⟨ts, b₁, htrials, hsettle⟩ := exists_of_alternation hrun
  -- what a candidate adds is taken away before the next one is tried
  obtain ⟨hsame, htried, -⟩ := tried_of_trials (P := fun x => x.branches = b.branches)
    (fun _ hx => hx) (fun g hg x ok x' hpoint hx hgrow => by
      obtain ⟨new, hnew, -⟩ := (hbuilds g hg x ok x' (hpoint ▸ hb) hgrow).branches
      rw [Branch.branches_mk, hnew, hx, List.take_left]) rfl htrials
  obtain ⟨t, ht, hmatched, -, rfl⟩ | ⟨hok, -⟩ := exists_of_settle hsettle
  · obtain ⟨g, hg, x, x', hpoint, hx, hgrow, -, hchildren⟩ := htried t ht
    rw [hmatched] at hgrow
    obtain ⟨new, hnew, hword, hshaped⟩ := h g hg x x' (hpoint ▸ hb) hgrow
    rw [hnew, hx, List.drop_left] at hchildren
    refine ⟨new, ?_, hword, hshaped⟩
    rw [Branch.branches_mk, hsame, hchildren]
  · cases hok

theorem laysOut_turns (hbuilds : Builds ctx g) (hg : LaysOut shape ctx.source first g)
    (hnil : word []) (hmore : ∀ {xs ys}, first xs → word ys → word (xs ++ ys))
    {fuel count count' : Nat} {b b' : Sprout} (hb : (ctx.source.tail? b.cursor).isSome)
    (hrun : turns g fuel count b = some (count', b')) :
    ∃ new, b'.branches = b.branches ++ new ∧ word (Sprout.partsAll new) ∧
      ∀ c ∈ new, Sprout.Shaped shape c := by
  induction fuel generalizing count b with
  | zero =>
    cases hrun
    exact ⟨[], (List.append_nil _).symm, hnil, by simp⟩
  | succ fuel ih =>
    obtain ⟨matched, b₁, hturn, hrun⟩ := exists_of_turns hrun
    have hgrows := hbuilds b matched b₁ hb hturn
    obtain ⟨rfl, -, hrun⟩ | ⟨-, rfl⟩ := hrun
    · obtain ⟨new, hnew, hfirst, hshaped⟩ := hg b b₁ hb hturn
      obtain ⟨new', hnew', hword, hshaped'⟩ := ih (hgrows.tail?_cursor hb) hrun
      refine ⟨new ++ new', by rw [hnew', hnew, List.append_assoc], ?_, ?_⟩
      · rw [Sprout.partsAll_append]
        exact hmore hfirst hword
      · exact List.forall_mem_append.2 ⟨hshaped, hshaped'⟩
    · obtain ⟨new, hnew, -⟩ := hgrows.branches
      refine ⟨[], ?_, hnil, by simp⟩
      show b₁.branches.take b.branches.length = b.branches ++ []
      rw [hnew, List.take_left, List.append_nil]

theorem laysOut_call {grow : Growth} {c : Call} {p : Phrase String}
    (h : ∀ start child, (ctx.source.tail? start).isSome →
      grow (seed ctx c start) = some (true, child) → child.Fits shape p) :
    LaysOut shape ctx.source (Word p) (call ctx grow c) := by
  intro b b' hb hrun
  obtain ⟨child, hgrow, rfl⟩ := exists_of_call hrun
  obtain ⟨hword, hshaped⟩ := h b.cursor child hb hgrow
  refine ⟨[child], rfl, ?_, by simpa using hshaped⟩
  rw [Sprout.partsAll_eq, List.flatMap_singleton]
  exact hword

end Growth

/-- A literal that matches has recorded its text. -/
theorem Terminal.literal_attached {src : Source} {n : Node} {t : String} {cs : List Char}
    (ht : t ≠ "") (hrole : n.role.attached? = some t) (hnone : n.literal = none)
    (h : src.tail? n.point = some cs) (hok : (attached src n).1 = true) :
    (attached src n).2.literal = some t := by
  rw [attached_eq ht hrole h] at hok ⊢
  split at hok
  · next hprefix =>
    obtain ⟨rest, rfl⟩ := List.isPrefixOf_iff_prefix.1 hprefix
    have hspells : src.Spells n.point t.toList (n.point + byteLength t.toList) := ⟨rest, h, rfl⟩
    rw [if_pos hprefix]
    unfold take Node.record
    dsimp only
    rw [hnone, hspells.slice, String.ofList_toList]
    simp
  · cases hok

section

variable {ctx : Context} {shape : Shape} {e : Expr} {p : Phrase String}

theorem Expr.Lays.laysOut (hlexical : ctx.rules.Lexical) (hrules : ctx.rules.LaysOut shape)
    (left : Nat) (h : e.Lays ctx.rules shape p) :
    Growth.LaysOut shape ctx.source (Word p) (e.growth ctx (ctx.grow left)) := by
  -- on how deeply rules may be nested, and for each depth on the shape of the body
  induction left using Nat.strongRecOn generalizing e p with
  | ind left ih =>
    have hbuilds : ∀ {e : Expr}, e.Composite → Growth.Builds ctx (e.growth ctx (ctx.grow left)) :=
      fun he => he.builds (Context.yields_grow hlexical left)
    have hbelow : ∀ {below : Nat} {body : Expr} {q : Phrase String} {c : Call} {start : Nat}
        {b : Sprout}, below < left → body.Lays ctx.rules shape q →
        (ctx.source.tail? start).isSome →
        body.growth ctx (ctx.grow below) (Growth.seed ctx c start) = some (true, b) →
        b.label.name = c.rule ∧ b.label.role = c.role ∧ b.label.literal = none ∧
          Word q (Sprout.partsAll b.branches) ∧ ∀ d ∈ b.branches, Sprout.Shaped shape d := by
      intro below body q c start b hlt hbody hstart hrun
      have hgrows := hbody.composite.builds (Context.yields_grow hlexical below)
        (Growth.seed ctx c start) true b hstart hrun
      obtain ⟨new, hnew, hword, hshaped⟩ :=
        ih below hlt hbody (Growth.seed ctx c start) b hstart hrun
      have hnew : b.branches = new := hnew
      rw [hnew]
      exact ⟨hgrows.origin.name, hgrows.origin.role, hgrows.literal, hword, hshaped⟩
    induction h with
    | @ref name hname =>
      apply Growth.laysOut_call
      intro start child hstart hgrow
      obtain ⟨body, hrule, hbody⟩ := hrules name hname
      obtain ⟨below, b, rfl, hrun, rfl⟩ := Context.exists_of_grow hrule hgrow
      obtain ⟨hbname, hbrole, hword, hshaped⟩ : b.label.name = name ∧ b.label.role = .plain ∧
          Word (shape.production name) (Sprout.partsAll b.branches) ∧
            ∀ d ∈ b.branches, Sprout.Shaped shape d := by
        cases hbody with
        | inl hleaf =>
          obtain ⟨hleaf, hword⟩ := hleaf
          obtain ⟨hb, -, horigin⟩ := hleaf.fills (ctx.grow below)
            (Growth.seed ctx (.ref name) start) true b rfl (.nil hstart) hrun
          rw [hb]
          exact ⟨horigin.name, horigin.role, hword, by simp⟩
        | inr hlays =>
          obtain ⟨hbname, hbrole, -, hword, hshaped⟩ :=
            hbelow (Nat.lt_succ_self below) hlays hstart hrun
          exact ⟨hbname, hbrole, hword, hshaped⟩
      subst hbname
      exact Sprout.fits_plain (n := { b.label with matched := true }) hbrole hname hword hshaped
    | named caption hrule hbody _ =>
      apply Growth.laysOut_call
      intro start child hstart hgrow
      obtain ⟨below, b, rfl, hrun, rfl⟩ := Context.exists_of_grow hrule hgrow
      obtain ⟨-, hbrole, hnone, hword, hshaped⟩ :=
        hbelow (Nat.lt_succ_self below) hbody hstart hrun
      exact Sprout.fits_wrapper hbrole hnone hword hshaped
    | @lit hrule t ht =>
      apply Growth.laysOut_call
      intro start child hstart hgrow
      obtain ⟨below, b, rfl, hrun, rfl⟩ := Context.exists_of_grow hrule hgrow
      obtain ⟨cs, hcs⟩ := Option.isSome_iff_exists.1 hstart
      obtain ⟨hok, rfl⟩ := Prod.mk.inj (Option.some.inj hrun)
      have htext := Terminal.literal_attached ht rfl rfl hcs hok
      have hrole := (Terminal.keeps_attached ctx.source
        (Growth.seed ctx (.lit t) start).label).1.role
      exact Sprout.fits_literal hrole htext
    | nil => exact Growth.laysOut_sequence_nil .nil
    | cons he _ ihfirst ihrest =>
      exact Growth.laysOut_sequence_cons (hbuilds he.composite) ihfirst ihrest .cons
    | alt hes ih =>
      exact Growth.laysOut_alternation
        (Expr.forall_mem_growths fun e he => hbuilds (hes e he).composite)
        (Expr.forall_mem_growths ih)
    | oneOf hp _ ih =>
      exact fun b b' hb hrun => (ih b b' hb hrun).imp fun _ h => ⟨h.1, .oneOf hp h.2.1, h.2.2⟩
    | @many e p he ih =>
      intro b b' hb hrun
      obtain ⟨-, count, hturns⟩ := Expr.exists_of_many hrun
      exact Growth.laysOut_turns (hbuilds he.composite) ih (.none p) .more hb hturns

end

end RankedGrammar
