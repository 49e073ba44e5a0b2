import RankedGrammar.Proofs.Grammar.Phrase
import RankedGrammar.Proofs.Match.Simulation
import RankedGrammar.Proofs.Match.Terminal

/-!
Rules against a grammar. Rules that render a grammar match nothing else: greed, ranking and the
commitment to one candidate only leave derivations out.
-/
namespace RankedGrammar
open Text (byteLength)

namespace Growth
open Step (Trial ranked heaviest)

/-- A success moves the cursor over a text of the language. -/
def Covers (src : Source) (lang : List Char → Prop) (g : Growth) : Prop :=
  ∀ b b', (src.tail? b.cursor).isSome → g b = some (true, b') →
    ∃ cs, src.Spells b.cursor cs b'.cursor ∧ lang cs

variable {src : Source} {lang first rest : List Char → Prop} {g : Growth} {gs : List Growth}

theorem covers_const (h : lang []) (ok : Bool) : Covers src lang (const ok) := by
  intro b b' hb hrun
  cases hrun
  exact ⟨[], .nil hb, h⟩

theorem covers_own {f : Terminal} (h : ∀ n cs, src.tail? n.point = some cs → (f n).1 = true →
    ∃ ds, src.Spells n.point ds (f n).2.point ∧ lang ds) : Covers src lang (own f) := by
  intro b b' hb hrun
  obtain ⟨cs, hcs⟩ := Option.isSome_iff_exists.1 hb
  have hrun := Option.some.inj hrun
  obtain ⟨hok, rfl⟩ := Prod.mk.inj hrun
  exact h b.label cs hcs hok

theorem covers_sequence_nil (h : lang []) : Covers src lang (sequence []) := by
  intro b b' hb hrun
  cases hrun
  exact ⟨[], .nil hb, h⟩

theorem covers_sequence_cons (hg : Covers src first g) (hgs : Covers src rest (sequence gs))
    (h : ∀ {cs ds}, first cs → rest ds → lang (cs ++ ds)) :
    Covers src lang (sequence (g :: gs)) := by
  intro b b' hb hrun
  obtain ⟨b₁, hfirst, hrest⟩ := exists_of_sequence_cons hrun
  obtain ⟨cs, hcs, hlang⟩ := hg b b₁ hb hfirst
  obtain ⟨ds, hds, hlang'⟩ := hgs b₁ b' hcs.tail?_stop hrest
  exact ⟨cs ++ ds, hcs.append hds, h hlang hlang'⟩

theorem covers_alternation (h : ∀ g ∈ gs, Covers src lang g) :
    Covers src lang (alternation gs) := by
  intro b b' hb hrun
  obtain ⟨ts, b₁, htrials, hsettle⟩ := exists_of_alternation hrun
  have htried := (tried_of_trials (P := fun _ => True) (fun _ _ => trivial)
    (fun _ _ _ _ _ _ _ _ => trivial) trivial htrials).2.1
  obtain ⟨t, ht, hmatched, -, rfl⟩ | ⟨hok, -⟩ := exists_of_settle hsettle
  · obtain ⟨g, hg, b₂, b₃, hcursor, -, hrun, hpoint, -⟩ := htried t ht
    rw [hmatched] at hrun
    have hcovers := h g hg b₂ b₃ (hcursor ▸ hb) hrun
    rw [hcursor, ← hpoint] at hcovers
    exact hcovers
  · cases hok

theorem covers_turns (hg : Covers src first g) (hnil : lang [])
    (hmore : ∀ {cs ds}, first cs → lang ds → lang (cs ++ ds)) {fuel count count' : Nat}
    {b b' : Sprout} (hb : (src.tail? b.cursor).isSome)
    (hrun : turns g fuel count b = some (count', b')) :
    ∃ cs, src.Spells b.cursor cs b'.cursor ∧ lang cs := by
  induction fuel generalizing count b with
  | zero =>
    cases hrun
    exact ⟨[], .nil hb, hnil⟩
  | succ fuel ih =>
    obtain ⟨matched, b₁, hturn, ⟨rfl, -, hrun⟩ | ⟨-, rfl⟩⟩ := exists_of_turns hrun
    · obtain ⟨cs, hcs, hfirst⟩ := hg b b₁ hb hturn
      obtain ⟨ds, hds, hlang⟩ := ih hcs.tail?_stop hrun
      exact ⟨cs ++ ds, hcs.append hds, hmore hfirst hlang⟩
    · exact ⟨[], .nil hb, hnil⟩

/-- A call covers what a run of its rule does. -/
theorem covers_call {ctx : Context} {grow : Growth} {c : Call}
    (h : ∀ start child, (ctx.source.tail? start).isSome →
      grow (seed ctx c start) = some (true, child) →
        ∃ cs, ctx.source.Spells start cs child.cursor ∧ lang cs) :
    Covers ctx.source lang (call ctx grow c) := by
  intro b b' hb hrun
  obtain ⟨child, hgrow, rfl⟩ := exists_of_call hrun
  exact h b.cursor child hb hgrow

end Growth

namespace Terminal

variable {src : Source} {n : Node} {k : ByteClass} {cs ds : List Char}

theorem spells_take (h : src.tail? n.point = some (ds ++ cs)) :
    src.Spells n.point ds (take src (byteLength ds) n).point := ⟨cs, h, rfl⟩

theorem spells_byte (hk : k.Ascii) (h : src.tail? n.point = some cs)
    (hok : (byte src k n).1 = true) :
    ∃ c, src.Spells n.point [c] (byte src k n).2.point ∧ k.holds c = true := by
  cases hhead : cs.head?.any k.holds with
  | false =>
    rw [byte_of_not_holds hk hhead h] at hok
    cases hok
  | true =>
    obtain ⟨c, hc, hholds⟩ := (Option.any_eq_true _ _).1 hhead
    obtain ⟨cs, rfl⟩ := List.head?_eq_some_iff.1 hc
    rw [byte_of_holds hk hholds h]
    exact ⟨c, spells_take h, hholds⟩

theorem spells_bytes (hk : k.Ascii) (least : Nat) (h : src.tail? n.point = some cs) :
    ∃ ds, src.Spells n.point ds (bytes src k least n).2.point ∧ ∀ c ∈ ds, k.holds c = true := by
  rw [bytes_eq hk least h]
  rw [← List.takeWhile_append_dropWhile (p := k.holds) (l := cs)] at h
  exact ⟨cs.takeWhile k.holds, spells_take h, List.all_eq_true.1 List.all_takeWhile⟩

theorem spells_takeRead {reader : List Char → Option (List Char)}
    (hreader : ∀ cs ds, reader cs = some ds → ds <+: cs) (h : src.tail? n.point = some cs)
    (hok : (takeRead src reader n).1 = true) :
    ∃ ds, src.Spells n.point ds (takeRead src reader n).2.point ∧ reader cs = some ds := by
  rw [takeRead_eq h] at hok ⊢
  cases hread : reader cs with
  | none =>
    rw [hread] at hok
    cases hok
  | some ds =>
    obtain ⟨rest, rfl⟩ := hreader cs ds hread
    exact ⟨ds, spells_take h, rfl⟩

theorem spells_text (t : String) (h : src.tail? n.point = some cs) (hok : (text src t n).1 = true) :
    src.Spells n.point t.toList (text src t n).2.point := by
  obtain ⟨ds, hspells, hread⟩ := spells_takeRead (fun _ _ h => isPrefix_of_reader h) h hok
  split at hread
  · cases hread
    exact hspells
  · cases hread

theorem spells_attached {t : String} (ht : n.role.attached? = some t)
    (h : src.tail? n.point = some cs) (hok : (attached src n).1 = true) :
    src.Spells n.point t.toList (attached src n).2.point := by
  unfold attached at hok ⊢
  rw [ht] at hok ⊢
  dsimp only at hok ⊢
  split at hok
  · cases hok
  · next hne =>
    rw [if_neg hne]
    exact spells_text t h hok

end Terminal

/-- A grammar whose symbols are names of rules. -/
structure Grammar (σ : Type) where
  name : σ → String
  rule : σ → Phrase σ

namespace Grammar

variable {σ : Type}

def Derives (g : Grammar σ) : Phrase σ → List Char → Prop := Phrase.Derives g.rule

theorem derives_symbol {g : Grammar σ} {s : σ} {cs : List Char} :
    g.Derives (.symbol s) cs ↔ g.Derives (g.rule s) cs := Phrase.derives_symbol

end Grammar

section

variable {σ : Type} {rules : RuleIndex Expr} {g : Grammar σ}

/-- The body of a rule has the shape of a phrase. A rule that is no symbol stands for its body. -/
inductive Expr.Renders (rules : RuleIndex Expr) (g : Grammar σ) : Expr → Phrase σ → Prop where
  | symbol (s : σ) : Renders rules g (.ref (g.name s)) (.symbol s)
  | ref {name : String} {body : Expr} {p : Phrase σ} (h : rules.rule? name = some body)
      (hbody : Renders rules g body p) : Renders rules g (.ref name) p
  | named {name : String} (caption : String) {body : Expr} {p : Phrase σ}
      (h : rules.rule? name = some body) (hbody : Renders rules g body p) :
      Renders rules g (.named name caption) p
  | lit (h : rules.rule? literalName = some .attached) (t : String) :
      Renders rules g (.lit t) (.text t)
  | nil : Renders rules g (.seq []) (.seq [])
  | cons {e : Expr} {es : List Expr} {p : Phrase σ} {ps : List (Phrase σ)}
      (h : Renders rules g e p) (hs : Renders rules g (.seq es) (.seq ps)) :
      Renders rules g (.seq (e :: es)) (.seq (p :: ps))
  | alt {es : List Expr} {p : Phrase σ} (h : ∀ e ∈ es, Renders rules g e p) :
      Renders rules g (.alt es) p
  | oneOf {e : Expr} {p : Phrase σ} {ps : List (Phrase σ)} (hp : p ∈ ps) (h : Renders rules g e p) :
      Renders rules g e (.oneOf ps)
  | many {e : Expr} {p : Phrase σ} (h : Renders rules g e p) : Renders rules g (.many e) (.many p)
  | byte {k : ByteClass} (hk : k.Ascii) {p : Phrase σ}
      (h : ∀ c, k.holds c = true → g.Derives p [c]) : Renders rules g (.byte k) p
  | bytes {k : ByteClass} (hk : k.Ascii) (least : Nat) {p : Phrase σ}
      (h : ∀ cs, (∀ c ∈ cs, k.holds c = true) → g.Derives p cs) :
      Renders rules g (.bytes k least) p
  | pattern (p : Text.Pattern) : Renders rules g (.pattern p) p.phrase
  | atEnd : Renders rules g .atEnd (.seq [])
  | const (ok : Bool) : Renders rules g (.const ok) (.seq [])

/-- Every symbol of the grammar has a rule of the shape of its phrase. -/
def RuleIndex.Renders (rules : RuleIndex Expr) (g : Grammar σ) : Prop :=
  ∀ s, ∃ body, rules.rule? (g.name s) = some body ∧ body.Renders rules g (g.rule s)

variable {ctx : Context} {e : Expr} {p : Phrase σ}

theorem Expr.Renders.covers (hrules : ctx.rules.Renders g) (left : Nat)
    (h : e.Renders ctx.rules g p) :
    Growth.Covers ctx.source (g.Derives p) (e.growth ctx (ctx.grow left)) := by
  -- on how deeply rules may be nested, and for each depth on the shape of the body
  induction left using Nat.strongRecOn generalizing e p with
  | ind left ih =>
    have hcall : ∀ {c : Call} {body : Expr} {q : Phrase σ}, ctx.rules.rule? c.rule = some body →
        body.Renders ctx.rules g q → Growth.Covers ctx.source (g.Derives q)
          (Growth.call ctx (ctx.grow left) c) := by
      intro c body q hrule hbody
      apply Growth.covers_call
      intro start child hstart hgrow
      obtain ⟨below, b, rfl, hrun, rfl⟩ := Context.exists_of_grow hrule hgrow
      exact ih below (Nat.lt_succ_self below) hbody (Growth.seed ctx c start) b hstart hrun
    induction h with
    | symbol s =>
      obtain ⟨body, hrule, hbody⟩ := hrules s
      have hcovers := hcall (c := .ref (g.name s)) hrule hbody
      exact fun b b' hb hrun => (hcovers b b' hb hrun).imp fun _ h => ⟨h.1, .symbol h.2⟩
    | ref hrule hbody _ => exact hcall (c := .ref _) hrule hbody
    | named caption hrule hbody _ => exact hcall (c := .named _ caption) hrule hbody
    | lit hrule t =>
      apply Growth.covers_call
      intro start child hstart hgrow
      obtain ⟨below, b, rfl, hrun, rfl⟩ := Context.exists_of_grow hrule hgrow
      obtain ⟨cs, hcs⟩ := Option.isSome_iff_exists.1 hstart
      obtain ⟨hok, rfl⟩ := Prod.mk.inj (Option.some.inj hrun)
      exact ⟨t.toList, Terminal.spells_attached rfl hcs hok, .text t⟩
    | nil => exact Growth.covers_sequence_nil .nil
    | cons _ _ ihfirst ihrest => exact Growth.covers_sequence_cons ihfirst ihrest .cons
    | alt _ ih => exact Growth.covers_alternation (Expr.forall_mem_growths ih)
    | oneOf hp _ ih =>
      exact fun b b' hb hrun => (ih b b' hb hrun).imp fun _ h => ⟨h.1, .oneOf hp h.2⟩
    | @many e p _ ih =>
      intro b b' hb hrun
      obtain ⟨-, count, hturns⟩ := Expr.exists_of_many hrun
      exact Growth.covers_turns ih (.none p) .more hb hturns
    | byte hk h =>
      apply Growth.covers_own
      intro n cs hcs hok
      obtain ⟨c, hspells, hc⟩ := Terminal.spells_byte hk hcs hok
      exact ⟨[c], hspells, h c hc⟩
    | bytes hk least h =>
      apply Growth.covers_own
      intro n cs hcs _
      obtain ⟨ds, hspells, hds⟩ := Terminal.spells_bytes hk least hcs
      exact ⟨ds, hspells, h ds hds⟩
    | pattern q =>
      apply Growth.covers_own
      intro n cs hcs hok
      obtain ⟨ds, hspells, hmatch⟩ := Terminal.spells_takeRead
        (fun cs ds h => Text.Pattern.isPrefix_of_match? h) hcs hok
      exact ⟨ds, hspells, Text.Pattern.derives_of_match? hmatch⟩
    | atEnd =>
      apply Growth.covers_own
      intro n cs hcs _
      exact ⟨[], .nil (hcs ▸ rfl), .nil⟩
    | const ok => exact Growth.covers_const .nil ok

end

end RankedGrammar
