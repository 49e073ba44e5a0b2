import RankedGrammar.Proofs.Diagnostic.Expectations
import RankedGrammar.Proofs.Grammar.Productive
import RankedGrammar.Proofs.Grammar.Valid
import RankedGrammar.Proofs.Match.Expected

/-!
Where errors are reported. Rules that render a productive grammar are called only where the text so
far is the beginning of a text of the grammar, so that whatever is put on record as expected stands
at such a place, also by what is given up later.
-/
namespace RankedGrammar

namespace Source

variable {src : Source} {whole part part' : List Char → Prop} {start stop : Nat}

/-- The text up to the place is the beginning of a text of the language. -/
def Begins (src : Source) (whole : List Char → Prop) (k : Nat) : Prop :=
  ∃ begun, src.Spells 0 begun k ∧ ∃ rest, whole (begun ++ rest)

/-- After the text up to the place every text of `part` may come, in a text of `whole`. -/
def Awaits (src : Source) (whole part : List Char → Prop) (k : Nat) : Prop :=
  ∃ begun, src.Spells 0 begun k ∧ ∀ cs, part cs → ∃ rest, whole (begun ++ (cs ++ rest))

namespace Awaits

theorem begins (h : src.Awaits whole part start) (hpart : ∃ cs, part cs) :
    src.Begins whole start := by
  obtain ⟨begun, hbegun, hwhole⟩ := h
  obtain ⟨cs, hcs⟩ := hpart
  obtain ⟨rest, hrest⟩ := hwhole cs hcs
  exact ⟨begun, hbegun, cs ++ rest, hrest⟩

/-- What may come is also a part with some text after it. -/
theorem first (h : src.Awaits whole part start)
    (hpart : ∀ cs, part' cs → ∃ ds, part (cs ++ ds)) : src.Awaits whole part' start := by
  obtain ⟨begun, hbegun, hwhole⟩ := h
  refine ⟨begun, hbegun, fun cs hcs => ?_⟩
  obtain ⟨ds, hds⟩ := hpart cs hcs
  obtain ⟨rest, hrest⟩ := hwhole (cs ++ ds) hds
  exact ⟨ds ++ rest, by rwa [List.append_assoc] at hrest⟩

/-- After a text, what may come is what goes on with it. -/
theorem next (h : src.Awaits whole part start) {cs : List Char} (hcs : src.Spells start cs stop)
    (hpart : ∀ ds, part' ds → part (cs ++ ds)) : src.Awaits whole part' stop := by
  obtain ⟨begun, hbegun, hwhole⟩ := h
  refine ⟨begun ++ cs, hbegun.append hcs, fun ds hds => ?_⟩
  obtain ⟨rest, hrest⟩ := hwhole (cs ++ ds) (hpart ds hds)
  exact ⟨rest, by rwa [List.append_assoc] at hrest ⊢⟩

theorem tail?_isSome (h : src.Awaits whole part start) : (src.tail? start).isSome := by
  obtain ⟨begun, hbegun, -⟩ := h
  exact hbegun.tail?_stop

end Awaits

end Source

/-- Names that are expected at a place up to which the text is the beginning of a text of the
language. -/
def Expectation.Viable (src : Source) (whole : List Char → Prop) (x : Expectation) : Prop :=
  x.names ≠ [] ∧ ∃ k, src.position k = x.position ∧ src.Begins whole k

def Expectations.Viable (src : Source) (whole : List Char → Prop) (s : Expectations) : Prop :=
  ∀ x ∈ s.entries, x.Viable src whole

def Sprout.Viable (src : Source) (whole : List Char → Prop) (b : Sprout) : Prop :=
  ∀ n ∈ b.preorder, n.expected.Viable src whole

section

variable {src : Source} {whole : List Char → Prop}

theorem Expectation.viable_union {a b : Expectation} (h : a.Viable src whole) :
    (a.union b).Viable src whole :=
  ⟨List.append_ne_nil_of_left_ne_nil h.1 _, h.2⟩

namespace Expectations

variable {s t : Expectations}

theorem viable_empty : empty.Viable src whole := by simp [Viable, empty]

theorem viable_single {k : Nat} (h : src.Begins whole k) (name : String) :
    (single (src.position k) name).Viable src whole := by
  intro x hx
  rw [single, List.mem_singleton] at hx
  rw [hx]
  exact ⟨by simp, k, rfl, h⟩

theorem Viable.merge (hs : s.Viable src whole) (ht : t.Viable src whole) :
    (s.merge t).Viable src whole :=
  Expectation.forall_mem_merge (fun ha _ => Expectation.viable_union ha) hs ht

theorem Viable.foldl_merge {α : Type} {f : α → Expectations} {xs : List α}
    (hs : s.Viable src whole) (h : ∀ x ∈ xs, (f x).Viable src whole) :
    (xs.foldl (fun e x => e.merge (f x)) s).Viable src whole := by
  induction xs generalizing s with
  | nil => exact hs
  | cons x xs ih =>
    obtain ⟨hx, hxs⟩ := List.forall_mem_cons.1 h
    exact ih (hs.merge hx) hxs

end Expectations

namespace Sprout

variable {b : Sprout} {n : Node} {bs cs : List Sprout}

theorem viable_mk : Sprout.Viable src whole (.mk n bs) ↔
    n.expected.Viable src whole ∧ ∀ b ∈ bs, b.Viable src whole := by
  simp only [Sprout.Viable, Branch.preorder_mk, List.forall_mem_cons, List.mem_flatMap]
  refine and_congr_right fun _ => ⟨fun h b hb m hm => h m ⟨b, hb, hm⟩, ?_⟩
  rintro h m ⟨b, hb, hm⟩
  exact h b hb m hm

namespace Viable

theorem label (h : b.Viable src whole) : b.label.expected.Viable src whole := by
  obtain ⟨n, bs⟩ := b
  exact (viable_mk.1 h).1

theorem branches (h : b.Viable src whole) : ∀ c ∈ b.branches, Sprout.Viable src whole c := by
  obtain ⟨n, bs⟩ := b
  exact (viable_mk.1 h).2

theorem expected (h : b.Viable src whole) : b.expected.Viable src whole :=
  Expectations.viable_empty.foldl_merge h

theorem expectedOf (h : ∀ b ∈ bs, b.Viable src whole) :
    (Sprout.expectedOf bs).Viable src whole :=
  Expectations.viable_empty.foldl_merge fun b hb => (h b hb).expected

end Viable

theorem viable_moveTo {point : Nat} : (b.moveTo point).Viable src whole ↔ b.Viable src whole := by
  obtain ⟨n, bs⟩ := b
  rw [viable_mk]
  exact viable_mk

end Sprout

theorem Node.viable_missed {n : Node} (h : n.expected.Viable src whole)
    (hn : src.Begins whole n.point) (c : Call) : (n.missed src c).expected.Viable src whole := by
  unfold missed
  split
  · next name _ =>
    split
    · exact h
    · exact h.merge (Expectations.viable_single hn name)
  · exact h

namespace Growth
open Step (Trial ranked heaviest)

/-- Where the language is awaited, a run puts nothing on record that is not viable. -/
def Reports (src : Source) (whole part : List Char → Prop) (g : Growth) : Prop :=
  ∀ b ok b', src.Awaits whole part b.cursor → b.Viable src whole → g b = some (ok, b') →
    b'.Viable src whole

variable {part first rest : List Char → Prop} {g : Growth} {gs : List Growth}

theorem reports_const (ok : Bool) : Reports src whole part (const ok) := by
  intro b ok' b' _ hb hrun
  cases hrun
  exact hb

theorem reports_own {f : Terminal} (hf : f.Spares Node.expected) :
    Reports src whole part (own f) := by
  intro b ok b' _ hb hrun
  cases hrun
  refine Sprout.viable_mk.2 ⟨?_, hb.branches⟩
  rw [hf b.label]
  exact hb.label

theorem reports_all_nil : Reports src whole part (all []) := by
  intro b ok b' _ hb hrun
  cases hrun
  exact hb

theorem reports_all_cons (hcovers : Covers src first g) (hg : Reports src whole first g)
    (hgs : Reports src whole rest (all gs)) (hrest : ∃ ds, rest ds)
    (h : ∀ {cs ds}, first cs → rest ds → part (cs ++ ds)) :
    Reports src whole part (all (g :: gs)) := by
  intro b ok b' hawaits hb hrun
  have hfirst : src.Awaits whole first b.cursor :=
    hawaits.first fun cs hcs => hrest.imp fun ds hds => h hcs hds
  obtain ⟨rfl, hfails⟩ | ⟨b₁, hmatches, hall⟩ := exists_of_all hrun
  · exact hg b false b' hfirst hb hfails
  · obtain ⟨cs, hcs, hlang⟩ := hcovers b b₁ hawaits.tail?_isSome hmatches
    have hnext : src.Awaits whole rest b₁.cursor := hawaits.next hcs fun ds hds => h hlang hds
    exact hgs b₁ ok b' hnext (hg b true b₁ hfirst hb hmatches) hall

/-- A sequence that fails only moves the cursor. -/
theorem reports_sequence_iff :
    Reports src whole part (sequence gs) ↔ Reports src whole part (all gs) := by
  constructor
  · intro h b ok b' hawaits hb hrun
    cases ok with
    | true =>
      have hsequence : sequence gs b = some (true, b') := by
        unfold sequence
        rw [hrun]
      exact h b true b' hawaits hb hsequence
    | false =>
      have hsequence : sequence gs b = some (false, b'.moveTo b.cursor) := by
        unfold sequence
        rw [hrun]
      exact Sprout.viable_moveTo.1 (h b false _ hawaits hb hsequence)
  · intro h b ok b' hawaits hb hrun
    obtain ⟨b₁, hall, rfl⟩ := exists_of_sequence hrun
    have hb₁ := h b ok b₁ hawaits hb hall
    cases ok with
    | true => exact hb₁
    | false => exact Sprout.viable_moveTo.2 hb₁

/-- What the candidates that lose have put on record is viable as well. -/
theorem reports_alternation (h : ∀ g ∈ gs, Reports src whole part g) :
    Reports src whole part (alternation gs) := by
  intro b ok b' hawaits hb hrun
  obtain ⟨ts, b₁, htrials, hsettle⟩ := exists_of_alternation hrun
  have hkeep : ∀ g ∈ gs, ∀ x ok x', x.cursor = b.cursor → Sprout.Viable src whole x →
      g x = some (ok, x') →
        Sprout.Viable src whole (.mk x'.label (x'.branches.take b.branches.length)) := by
    intro g hg x ok x' hcursor hx hgrow
    have hx' := h g hg x ok x' (hcursor ▸ hawaits) hx hgrow
    exact Sprout.viable_mk.2 ⟨hx'.label, fun c hc => hx'.branches c (List.mem_of_mem_take hc)⟩
  obtain ⟨hb₁, htried, -⟩ :=
    tried_of_trials (fun x hx => Sprout.viable_moveTo.2 hx) hkeep hb htrials
  have hchildren : ∀ t ∈ ts, ∀ c ∈ t.children, Sprout.Viable src whole c := by
    intro t ht c hc
    obtain ⟨g, hg, x, x', hcursor, hx, hgrow, -, hchildren⟩ := htried t ht
    rw [hchildren] at hc
    exact (h g hg x t.matched x' (hcursor ▸ hawaits) hx hgrow).branches c (List.mem_of_mem_drop hc)
  obtain ⟨t, ht, -, rfl, rfl⟩ | ⟨rfl, rfl⟩ := exists_of_settle hsettle
  · exact Sprout.viable_mk.2
      ⟨hb₁.label, List.forall_mem_append.2 ⟨hb₁.branches, hchildren t ht⟩⟩
  · refine Sprout.viable_mk.2 ⟨hb₁.label.merge (Sprout.Viable.expectedOf ?_), hb₁.branches⟩
    intro c hc
    obtain ⟨t, ht, hc⟩ := List.mem_flatMap.1 hc
    exact hchildren t ht c hc

/-- The turn that is taken back leaves what it put on record. -/
theorem reports_turns (hcovers : Covers src first g) (hg : Reports src whole first g)
    (hnil : part []) (hmore : ∀ {cs ds}, first cs → part ds → part (cs ++ ds))
    {fuel count count' : Nat} {b b' : Sprout} (hawaits : src.Awaits whole part b.cursor)
    (hb : b.Viable src whole) (hrun : turns g fuel count b = some (count', b')) :
    b'.Viable src whole := by
  induction fuel generalizing count b with
  | zero =>
    cases hrun
    exact hb
  | succ fuel ih =>
    obtain ⟨matched, b₁, hturn, hrun⟩ := exists_of_turns hrun
    have hfirst : src.Awaits whole first b.cursor :=
      hawaits.first fun cs hcs => ⟨[], hmore hcs hnil⟩
    have hb₁ := hg b matched b₁ hfirst hb hturn
    obtain ⟨rfl, -, hrun⟩ | ⟨-, rfl⟩ := hrun
    · obtain ⟨cs, hcs, hlang⟩ := hcovers b b₁ hawaits.tail?_isSome hturn
      exact ih (hawaits.next hcs fun ds hds => hmore hlang hds) hb₁ hrun
    · have hdropped : ∀ c ∈ b₁.branches.drop b.branches.length, Sprout.Viable src whole c :=
        fun c hc => hb₁.branches c (List.mem_of_mem_drop hc)
      refine Sprout.viable_mk.2 ⟨hb₁.label.merge (Sprout.Viable.expectedOf hdropped), ?_⟩
      exact fun c hc => hb₁.branches c (List.mem_of_mem_take hc)

theorem reports_call {ctx : Context} {grow : Growth} {c : Call} (hpart : ∃ cs, part cs)
    (h : ∀ start ok child, ctx.source.Awaits whole part start →
      grow (seed ctx c start) = some (ok, child) → Sprout.Viable ctx.source whole child) :
    Reports ctx.source whole part (call ctx grow c) := by
  intro b ok b' hawaits hb hrun
  obtain ⟨child, hgrow, rfl⟩ := exists_of_call hrun
  have hchild := h b.cursor ok child hawaits hgrow
  have hbranches : ∀ d ∈ b.branches ++ [child], Sprout.Viable ctx.source whole d :=
    List.forall_mem_append.2 ⟨hb.branches, by simpa using hchild⟩
  refine Sprout.viable_mk.2 ⟨?_, hbranches⟩
  cases ok with
  | true => exact hb.label
  | false => exact Node.viable_missed hb.label (hawaits.begins hpart) c

theorem viable_seed (ctx : Context) (c : Call) (start : Nat) :
    (seed ctx c start).Viable src whole :=
  Sprout.viable_mk.2 ⟨Expectations.viable_empty, by simp⟩

end Growth

end

section

variable {σ : Type} {g : Grammar σ} {ctx : Context} {whole : List Char → Prop} {e : Expr}
  {p : Phrase σ}

theorem Expr.Renders.reports (hrules : ctx.rules.Renders g) (hproductive : g.Productive)
    (left : Nat) (h : e.Renders ctx.rules g p) (hp : p.Fruitful) :
    Growth.Reports ctx.source whole (g.Derives p) (e.growth ctx (ctx.grow left)) := by
  -- on how deeply rules may be nested, and for each depth on the shape of the body
  induction left using Nat.strongRecOn generalizing e p with
  | ind left ih =>
    have hderives : ∀ {q : Phrase σ}, q.Fruitful → ∃ cs, g.Derives q cs :=
      fun hq => hq.exists_derives hproductive.derives
    have hcall : ∀ {c : Call} {body : Expr} {q : Phrase σ}, ctx.rules.rule? c.rule = some body →
        body.Renders ctx.rules g q → q.Fruitful →
          Growth.Reports ctx.source whole (g.Derives q) (Growth.call ctx (ctx.grow left) c) := by
      intro c body q hrule hbody hq
      apply Growth.reports_call (hderives hq)
      intro start ok child hawaits hgrow
      obtain ⟨below, b, rfl, hrun, rfl⟩ := Context.exists_of_grow hrule hgrow
      have hb := ih below (Nat.lt_succ_self below) hbody hq (Growth.seed ctx c start) ok b hawaits
        (Growth.viable_seed ctx c start) hrun
      exact Sprout.viable_mk.2 ⟨hb.label, hb.branches⟩
    induction h with
    | symbol s =>
      obtain ⟨body, hrule, hbody⟩ := hrules s
      have hreports := hcall (c := .ref (g.name s)) hrule hbody (hproductive.fruitful s)
      intro b ok b' hawaits
      exact hreports b ok b' (hawaits.first fun cs hcs =>
        ⟨[], by rw [List.append_nil]; exact .symbol hcs⟩)
    | ref hrule hbody _ => exact hcall (c := .ref _) hrule hbody hp
    | named caption hrule hbody _ => exact hcall (c := .named _ caption) hrule hbody hp
    | lit hrule t =>
      apply Growth.reports_call (hderives hp)
      intro start ok child hawaits hgrow
      obtain ⟨below, b, rfl, hrun, rfl⟩ := Context.exists_of_grow hrule hgrow
      have hspares := Terminal.spares_attached (g := Node.expected) (fun _ _ _ => rfl) ctx.source
      have hb := Growth.reports_own hspares (Growth.seed ctx (.lit t) start) ok b hawaits
        (Growth.viable_seed ctx (.lit t) start) hrun
      exact Sprout.viable_mk.2 ⟨hb.label, hb.branches⟩
    | nil => exact Growth.reports_sequence_iff.2 Growth.reports_all_nil
    | cons hfirst _ ihfirst ihrest =>
      obtain ⟨hpfirst, hprest⟩ := List.forall_mem_cons.1 (Phrase.Fruitful.seq_iff.1 hp)
      have hprest := Phrase.Fruitful.seq hprest
      exact Growth.reports_sequence_iff.2 (Growth.reports_all_cons (hfirst.covers hrules left)
        (ihfirst hpfirst) (Growth.reports_sequence_iff.1 (ihrest hprest)) (hderives hprest) .cons)
    | alt _ ih =>
      exact Growth.reports_alternation (Expr.forall_mem_growths fun e he => ih e he hp)
    | oneOf hmem _ ih =>
      have hcase := (Phrase.Fruitful.oneOf_iff.1 hp).2 _ hmem
      intro b ok b' hawaits
      exact ih hcase b ok b' (hawaits.first fun cs hcs =>
        ⟨[], by rw [List.append_nil]; exact .oneOf hmem hcs⟩)
    | @many e p he ih =>
      intro b ok b' hawaits hb hrun
      obtain ⟨-, count, hturns⟩ := Expr.exists_of_many hrun
      exact Growth.reports_turns (he.covers hrules left) (ih (Phrase.Fruitful.many_iff.1 hp))
        (.none p) .more hawaits hb hturns
    | @byte k =>
      exact Growth.reports_own (Terminal.spares_byte (fun _ _ _ => rfl) ctx.source k)
    | bytes =>
      exact Growth.reports_own fun n => Terminal.spares_take (fun _ _ _ => rfl) ctx.source _ n
    | pattern q =>
      exact Growth.reports_own (Terminal.spares_takeRead (fun _ _ _ => rfl) ctx.source _)
    | atEnd => exact Growth.reports_own fun _ => rfl
    | const ok => exact Growth.reports_const ok

end

/-- A reference that fails is on record at the place where it was made. -/
theorem Expr.has_of_ref {ctx : Context} {grow : Growth} {name : String} {b b' : Sprout}
    (hrole : b.label.role = .plain) (h : (Expr.ref name).growth ctx grow b = some (false, b')) :
    b'.label.expected.Has (ctx.source.position b.cursor) name := by
  obtain ⟨child, -, rfl⟩ := Growth.exists_of_call h
  have hkept : b.label.role.isTransient = false := by
    rw [hrole]
    rfl
  exact (Node.has_missed (c := .ref name)).2 (.inr ⟨rfl, hkept, rfl⟩)

namespace Context

variable {source : Source} {limit : Nat} {p : RawParse}

/-- A script fails only where what comes after its statements does, and says so. -/
theorem exists_expected_of_script {left : Nat} {b b' : Sprout}
    (hb : (source.tail? b.cursor).isSome) (hrole : b.label.role = .plain)
    (h : (Expr.seq [.many (.ref "STATEMENT"), .ref "WHITESPACE", .ref "EOF"]).growth
      (.statements source limit) ((Context.statements source limit).grow left) b =
        some (false, b')) :
    ∃ position name, b'.label.expected.Has position name := by
  have hlexical : (Context.statements source limit).rules.Lexical := Symbol.lexical_statements
  have hbuilds : ∀ {e : Expr}, e.Composite → Growth.Builds (.statements source limit)
      (e.growth (.statements source limit) ((Context.statements source limit).grow left)) :=
    fun he => he.builds (yields_grow hlexical left)
  obtain ⟨b₃, hall, hb'⟩ := Growth.exists_of_sequence h
  rw [if_neg Bool.false_ne_true] at hb'
  subst hb'
  obtain ⟨-, hmany⟩ | ⟨b₁, hmany, hall⟩ := Growth.exists_of_all hall
  · cases (Expr.exists_of_many hmany).1
  have hgrows₁ := hbuilds (.many (.ref "STATEMENT")) b true b₁ hb hmany
  have hb₁ := hgrows₁.tail?_cursor hb
  have hrole₁ : b₁.label.role = .plain := hgrows₁.origin.role.trans hrole
  obtain ⟨-, hblanks⟩ | ⟨b₂, hblanks, hall⟩ := Growth.exists_of_all hall
  · have hhas := Expr.has_of_ref hrole₁ hblanks
    exact ⟨_, _, hhas⟩
  have hgrows₂ := hbuilds (.ref "WHITESPACE") b₁ true b₂ hb₁ hblanks
  have hrole₂ : b₂.label.role = .plain := hgrows₂.origin.role.trans hrole₁
  obtain ⟨-, heof⟩ | ⟨b₄, -, hnil⟩ := Growth.exists_of_all hall
  · have hhas := Expr.has_of_ref hrole₂ heof
    exact ⟨_, _, hhas⟩
  · cases hnil

/-- A run of a symbol of a productive grammar expects nothing at a place that is not viable, whether
it is valid or not. -/
theorem viable_of_rawParse {σ : Type} {g : Grammar σ} {ctx : Context} {s : σ}
    (hrules : ctx.rules.Renders g) (hproductive : g.Productive)
    (h : ctx.rawParse (g.name s) = .ok p) :
    (p.tree.sprout Tree.root).Viable ctx.source (g.Derives (.symbol s)) := by
  obtain ⟨ok, hgrow⟩ := grow_of_rawParse h
  let seed : Sprout := Growth.seed ctx (.ref (g.name s)) 0
  have hrenders : (Expr.ref (g.name s)).Renders ctx.rules g (.symbol s) := .symbol s
  have hawaits : ctx.source.Awaits (g.Derives (.symbol s)) (g.Derives (.symbol s)) seed.cursor :=
    ⟨[], .nil ctx.source.tail?_zero, fun cs hcs => ⟨[], by simpa using hcs⟩⟩
  have hcall := hrenders.reports hrules hproductive ctx.limit (.symbol s) seed ok _ hawaits
    (Growth.viable_seed ctx _ 0) (Growth.call_eq hgrow)
  exact hcall.branches _ (List.mem_singleton.2 rfl)

/-- A run that is not valid has put on record what the script failed on. -/
theorem exists_has_of_rawParse
    (h : (Context.statements source limit).rawParse "SCRIPT" = .ok p) (hinvalid : p.valid = false) :
    ∃ position name, (p.tree.sprout Tree.root).expected.Has position name := by
  have hgrow := grow_valid_of_rawParse Symbol.lexical_statements h
  rw [hinvalid] at hgrow
  let seed : Sprout := Growth.seed (.statements source limit) (.ref "SCRIPT") 0
  have hscript : (Context.statements source limit).rules.rule? seed.label.name =
      some (.seq [.many (.ref "STATEMENT"), .ref "WHITESPACE", .ref "EOF"]) :=
    Language.rule?_statements 0 rfl
  obtain ⟨below, b, -, hrun, hroot⟩ := exists_of_grow hscript hgrow
  have hstart : (source.tail? seed.cursor).isSome := source.tail?_zero
  obtain ⟨position, name, hhas⟩ := exists_expected_of_script hstart rfl hrun
  rw [hroot]
  exact ⟨position, name,
    (Expectations.has_foldl_merge _ _).2 (.inr ⟨_, Branch.label_mem_preorder _, hhas⟩)⟩

/-- The error of a source that is not valid in the language of statements names something that was
expected, at a place between two characters up to which the source is the beginning of a script. -/
theorem parseError_viable (source : Source) (limit : Nat) (collapse : Bool) (p : Parse)
    (h : parse { source, rules := Language.statements.index, limit } "SCRIPT" collapse = .ok p)
    (hinvalid : p.valid = false) :
    ∃ e, p.parseError? = some e ∧ e.expected ≠ [] ∧
      ∃ k begun, k ≤ source.size ∧ source.slice? 0 k = some begun ∧
        source.position k = e.position ∧
        ∃ rest, Grammar.statements.Derives (.symbol .script) (begun.toList ++ rest) := by
  obtain ⟨q, hraw, rfl⟩ := parse_eq_ok h
  have hrules : (Context.statements source limit).rules.Renders Grammar.statements :=
    Language.renders_statements
  have hexpected : q.tree.expected Tree.root = (q.tree.sprout Tree.root).expected :=
    congrFun (wellFormed_of_rawParse hraw).expected_eq Tree.root
  have hviable : (q.tree.expected Tree.root).Viable source
      (Grammar.statements.Derives (.symbol .script)) := by
    rw [hexpected]
    exact (viable_of_rawParse (s := Symbol.script) hrules Grammar.productive_statements
      hraw).expected
  rw [RawParse.valid_finish] at hinvalid
  obtain ⟨position, name, hhas⟩ := exists_has_of_rawParse hraw hinvalid
  rw [← hexpected] at hhas
  obtain ⟨last, hlast, hfurthest⟩ := Expectations.exists_furthest hhas
  obtain ⟨hnames, k, hposition, begun, hbegun, rest, hrest⟩ := hviable last hlast
  have herror : (q.finish source collapse).parseError? = some ⟨last.position, last.names⟩ := by
    rw [Parse.parseError?, RawParse.valid_finish, RawParse.expected_finish, hinvalid,
      Expectations.parseError?, hfurthest]
    rfl
  refine ⟨_, herror, hnames, k, String.ofList begun, hbegun.le_size, hbegun.slice?, hposition,
    rest, ?_⟩
  rw [String.toList_ofList]
  exact hrest

/-- The place is that of the term that is missing, not that of the statement that was given up. -/
theorem parseError_viable_term : ∃ p e,
    parse { source := .ofString "$a = 1 + ;", rules := Language.statements.index } "SCRIPT" true =
        .ok p ∧
      p.valid = false ∧ p.parseError? = some e ∧ e.expected ≠ [] ∧ e.position = ⟨1, 9⟩ ∧
      ∃ k begun, (Source.ofString "$a = 1 + ;").slice? 0 k = some begun ∧
        (Source.ofString "$a = 1 + ;").position k = ⟨1, 9⟩ ∧
        ∃ rest, Grammar.statements.Derives (.symbol .script) (begun.toList ++ rest) := by
  let ctx : Context := { source := .ofString "$a = 1 + ;", rules := Language.statements.index }
  have hrun : (ctx.parse "SCRIPT" true).toOption.map (fun p => decide (p.valid = false ∧
      p.parseError?.map ParseError.position = some ⟨1, 9⟩)) = some true := by decide +kernel
  cases hp : ctx.parse "SCRIPT" true with
  | error e =>
    rw [hp] at hrun
    cases hrun
  | ok p =>
    rw [hp] at hrun
    obtain ⟨hinvalid, hplace⟩ := of_decide_eq_true (Option.some.inj hrun)
    obtain ⟨e, herror, hnames, k, begun, -, hbegun, hposition, hderives⟩ :=
      parseError_viable ctx.source ctx.limit true p hp hinvalid
    rw [herror] at hplace
    have hplace : e.position = ⟨1, 9⟩ := Option.some.inj hplace
    exact ⟨p, e, rfl, hinvalid, herror, hnames, hplace, k, begun, hbegun, hposition.trans hplace,
      hderives⟩

end Context

end RankedGrammar
