import RankedGrammar.Proofs.Match.Termination

/-!
What becomes of the text that attempts record. A node keeps the texts of all attempts made on it, in
the order in which they were made: a sequence that fails, a candidate that is not adopted and a turn
that is taken back give up the cursor and the children, not the text. So text is left over exactly
where such an attempt takes some by itself, and none where the attempts match through rules alone.
-/
namespace RankedGrammar

/-- The body takes and records no text by itself. -/
inductive Expr.Wordless : Expr → Prop where
  | ref (rule : String) : Wordless (.ref rule)
  | named (rule caption : String) : Wordless (.named rule caption)
  | lit (t : String) : Wordless (.lit t)
  | seq {es : List Expr} (h : ∀ e ∈ es, Wordless e) : Wordless (.seq es)
  | alt {es : List Expr} (h : ∀ e ∈ es, Wordless e) : Wordless (.alt es)
  | many {e : Expr} (h : Wordless e) : Wordless (.many e)
  | tally {e : Expr} (h : Wordless e) (least : Nat) : Wordless (.tally e least)
  | counted {e : Expr} (h : Wordless e) (test : Nat → Bool) : Wordless (.counted e test)
  | look (k : ByteClass) (offset : Nat) : Wordless (.look k offset)
  | skip (amount : Nat) : Wordless (.skip amount)
  | expect (name : String) : Wordless (.expect name)
  | atEnd : Wordless .atEnd
  | probe (label : String) : Wordless (.probe label)
  | not {e : Expr} (h : Wordless e) : Wordless (.not e)
  | all {es : List Expr} (h : ∀ e ∈ es, Wordless e) : Wordless (.all es)
  | any {es : List Expr} (h : ∀ e ∈ es, Wordless e) : Wordless (.any es)
  | ifElse {e yes no : Expr} (h : Wordless e) (hyes : Wordless yes) (hno : Wordless no) :
      Wordless (.ifElse e yes no)
  | const (ok : Bool) : Wordless (.const ok)

namespace RunState

def taken (s : RunState) (id : NodeId) : List Char := ((s.node id).literal.getD "").toList

theorem taken_modify (s : RunState) (id : NodeId) {f : Node → Node}
    (hf : (f (s.node id)).literal = (s.node id).literal) : (s.modify id f).taken id = s.taken id :=
  congrArg (fun literal : Option String => (literal.getD "").toList)
    (Tree.apply_node_modify Node.literal hf id)

/-- What the node has recorded is as `φ` says. -/
structure Records (id : Nat) (φ : Option String → Prop) (s : RunState) : Prop where
  wellFormed : s.tree.WellFormed
  lt_size : id < s.tree.size
  literal : φ (s.node id).literal

namespace Records

variable {id : Nat} {φ : Option String → Prop} {s s' : RunState} {f : Node → Node}

theorem congr (h : s.Records id φ) (htree : s'.tree = s.tree) : s'.Records id φ := by
  obtain ⟨tree, counters, fault, journal⟩ := s'
  subst htree
  exact ⟨h.wellFormed, h.lt_size, h.literal⟩

theorem modify (h : s.Records id φ) (hwf : (s.modify id f).tree.WellFormed)
    (hf : φ (f (s.node id)).literal) : (s.modify id f).Records id φ where
  wellFormed := hwf
  lt_size := (size_modify s id f).symm ▸ h.lt_size
  literal := by
    rw [node_modify_self s f h.lt_size]
    exact hf

theorem moveTo (h : s.Records id φ) (point : Nat) : (s.moveTo id point).Records id φ :=
  h.modify (h.wellFormed.modify rfl rfl) h.literal

theorem addExpected (h : s.Records id φ) (e : Expectations) : (s.addExpected id e).Records id φ :=
  h.modify (h.wellFormed.modify rfl rfl) h.literal

theorem keepChildren (h : s.Records id φ) (count : Nat) : (s.keepChildren id count).Records id φ :=
  h.modify (h.wellFormed.sublistChildren h.lt_size rfl (List.take_sublist _ _)) h.literal

end Records

end RunState

/-- A record of more text keeps what `φ` says of the text recorded. -/
def Lasting (φ : Option String → Prop) : Prop :=
  ∀ (literal : Option String) (t : String), φ literal → φ (some (literal.getD "" ++ t))

namespace Terminal

variable {src : Source} {φ : Option String → Prop}

def Records (φ : Option String → Prop) (f : Terminal) : Prop :=
  ∀ n, φ n.literal → φ (f n).2.literal

theorem records_byte (hφ : Lasting φ) (k : ByteClass) : (byte src k).Records φ := by
  intro n hn
  unfold byte
  split
  · exact hφ _ _ hn
  · exact hn

theorem records_takeRead (hφ : Lasting φ) (reader : List Char → Option (List Char)) :
    (takeRead src reader).Records φ := by
  intro n hn
  unfold takeRead
  split
  · exact hφ _ _ hn
  · exact hn

theorem records_attached (hφ : Lasting φ) : (attached src).Records φ := by
  intro n hn
  unfold attached
  split
  · split
    · exact hn
    · exact records_takeRead hφ _ n hn
  · exact hn

end Terminal

theorem Expr.Own.records {src : Source} {φ : Option String → Prop} {e : Expr} {f : Terminal}
    (h : e.Own src f) (hφ : e.Wordless ∨ Lasting φ) : f.Records φ := by
  cases hφ with
  | inl hwordless =>
    cases hwordless with
    | look | skip | expect | atEnd =>
      cases h
      exact fun _ hn => hn
    | _ => cases h
  | inr hlasting =>
    cases h with
    | byte k => exact Terminal.records_byte hlasting k
    | text t => exact Terminal.records_takeRead hlasting _
    | attached => exact Terminal.records_attached hlasting
    | pattern p => exact Terminal.records_takeRead hlasting _
    | bytes k least => exact fun _ => hlasting _ _
    | record t => exact fun _ => hlasting _ _
    | _ => exact fun _ hn => hn

namespace Step

section Records

variable {id : Nat} {φ : Option String → Prop} {r : Step} {rs : List Step} {s : RunState}

theorem records_own {f : Terminal} (hkeeps : f.Keeps) (hf : f.Records φ) :
    Keeps (RunState.Records id φ) (own id f) := by
  intro s hs
  obtain ⟨horigin, hchildren⟩ := hkeeps (s.node id)
  exact hs.modify (hs.wellFormed.modify horigin.parent hchildren) (hf _ hs.literal)

theorem records_sequence (h : ∀ r ∈ rs, Keeps (RunState.Records id φ) r) :
    Keeps (RunState.Records id φ) (sequence id rs) :=
  keeps_sequence (fun _ _ _ hs => hs.moveTo _) h

theorem records_trials (h : ∀ r ∈ rs, Keeps (RunState.Records id φ) r) (point base : Nat)
    (hs : s.Records id φ) : (trials id point base rs s).2.Records id φ :=
  keeps_trials (fun _ hs => hs.moveTo point) (fun _ hs => hs.keepChildren base) h hs

/-- Whatever an alternation adopts, it leaves the text recorded in its trials. -/
theorem literal_settle (id : NodeId) (point : Nat) (ts : List (Trial NodeId)) (s : RunState) :
    ((settle id point (ts, s)).2.node id).literal = (s.node id).literal := by
  have hmoved : ((s.moveTo id point).node id).literal = (s.node id).literal :=
    Tree.apply_node_modify Node.literal rfl id
  simp only [settle]
  split
  · exact hmoved
  split
  · refine (Tree.apply_node_modify Node.literal rfl id).trans ?_
    exact (Tree.apply_node_modify Node.literal rfl id).trans hmoved
  · exact (Tree.apply_node_modify Node.literal rfl id).trans hmoved

theorem records_alternation (hlocal : ∀ r ∈ rs, Local id r)
    (h : ∀ r ∈ rs, Keeps (RunState.Records id φ) r) :
    Keeps (RunState.Records id φ) (alternation id rs) := by
  intro s hs
  have hnoted : s.noteAlternation.Records id φ := hs.congr rfl
  have htried := records_trials h (s.cursor id) (s.node id).children.length hnoted
  have hext := local_alternation hlocal s hs.wellFormed hs.lt_size
  refine ⟨hext.wellFormed, Nat.lt_of_lt_of_le hs.lt_size hext.size_le, ?_⟩
  exact (literal_settle id (s.cursor id) _ _).symm ▸ htried.literal

theorem records_turns (h : Keeps (RunState.Records id φ) r) (fuel count : Nat)
    (hs : s.Records id φ) : (turns id r fuel count s).2.Records id φ :=
  keeps_turns (fun _ _ _ hs => ((hs.keepChildren _).addExpected _).moveTo _) h fuel count hs

theorem records_call {ctx : Context} {run : NodeId → Step} (c : Call)
    (h : ∀ child : Nat, Local child (run child)) :
    Keeps (RunState.Records id φ) (call ctx run id c) := by
  intro s hs
  have hgrow := extends_grow ctx c.rule c.role hs.wellFormed hs.lt_size
  have hsize := s.size_grow ctx id c.rule c.role
  have hrun := h s.tree.size (s.grow ctx id c.rule c.role) hgrow.wellFormed (by omega)
  obtain ⟨hself, -, -, -⟩ := RunState.grown ctx c hs.wellFormed hs.lt_size rfl hrun
  have hafter : (run s.tree.size (s.grow ctx id c.rule c.role)).2.Records id φ := by
    refine ⟨hrun.wellFormed, ?_, ?_⟩
    · exact Nat.lt_of_lt_of_le hs.lt_size (Nat.le_trans hgrow.size_le hrun.size_le)
    · rw [hself]
      exact hs.literal
  unfold call
  generalize run s.tree.size (s.grow ctx id c.rule c.role) = out at hafter ⊢
  obtain ⟨ok, s'⟩ := out
  cases ok with
  | true => exact hafter.moveTo _
  | false =>
    obtain ⟨hsame, hchildren⟩ := Node.keeps_missed ctx.source c (s'.node id)
    refine hafter.modify (hafter.wellFormed.modify hsame.parent hchildren) ?_
    rw [Node.missed_spares (g := Node.literal) fun _ _ => rfl]
    exact hafter.literal

end Records

end Step

/-- What is said of the text recorded lasts if it lasts when text is recorded, and in any case where
the body records none. -/
theorem Expr.records_step {ctx : Context} {run : NodeId → Step} (id : Nat)
    {φ : Option String → Prop} (h : ∀ child : Nat, Step.Local child (run child)) (e : Expr)
    (hφ : e.Wordless ∨ Lasting φ) : Step.Keeps (RunState.Records id φ) (e.step ctx run id) := by
  induction e using Expr.induct ctx.source with
  | call c =>
    rw [c.step_body]
    exact Step.records_call c h
  | seq es ih =>
    refine Step.records_sequence (forall_mem_steps fun e he => ih e he (hφ.imp_left fun hw => ?_))
    cases hw with | seq hes => exact hes e he
  | alt es ih =>
    refine Step.records_alternation (local_steps ctx id h es)
      (forall_mem_steps fun e he => ih e he (hφ.imp_left fun hw => ?_))
    cases hw with | alt hes => exact hes e he
  | many e ih =>
    have hkeeps := ih (hφ.imp_left fun hw => by cases hw; assumption)
    exact fun _ hs => Step.records_turns hkeeps _ 0 hs
  | tally e least ih =>
    have hkeeps := ih (hφ.imp_left fun hw => by cases hw; assumption)
    intro s hs
    exact (Step.records_turns hkeeps (ctx.source.size - s.cursor id + 1) 0 hs).congr rfl
  | counted e test ih =>
    have hkeeps := ih (hφ.imp_left fun hw => by cases hw; assumption)
    exact fun s hs => Step.records_turns hkeeps (ctx.source.size - s.cursor id + 1) 0 hs
  | own hown =>
    rw [hown.step_eq]
    exact Step.records_own hown.keeps (hown.records hφ)
  | probe label => exact fun _ hs => hs.congr rfl
  | not e ih => exact ih (hφ.imp_left fun hw => by cases hw; assumption)
  | all es ih =>
    refine Step.keeps_all (forall_mem_steps fun e he => ih e he (hφ.imp_left fun hw => ?_))
    cases hw with | all hes => exact hes e he
  | any es ih =>
    refine Step.keeps_any (forall_mem_steps fun e he => ih e he (hφ.imp_left fun hw => ?_))
    cases hw with | any hes => exact hes e he
  | ifElse e yes no ihe ihyes ihno =>
    exact Step.keeps_ifElse (ihe (hφ.imp_left fun hw => by cases hw; assumption))
      (ihyes (hφ.imp_left fun hw => by cases hw; assumption))
      (ihno (hφ.imp_left fun hw => by cases hw; assumption))
  | const ok => exact fun _ hs => hs

/-- Of lists joined, one is the whole exactly if the others are empty. -/
theorem flatten_eq_getElem {α : Type} {xss : List (List α)} {i : Nat} (hi : i < xss.length) :
    xss.flatten = xss[i] ↔ ∀ (j : Nat) (hj : j < xss.length), j ≠ i → xss[j] = [] := by
  induction xss generalizing i with
  | nil => cases hi
  | cons xs xss ih =>
    cases i with
    | zero =>
      rw [List.flatten_cons, List.getElem_cons_zero, List.append_right_eq_self,
        List.flatten_eq_nil_iff, List.forall_mem_iff_getElem]
      constructor
      · intro hnil j hj hne
        cases j with
        | zero => exact absurd rfl hne
        | succ j => exact hnil j (Nat.lt_of_succ_lt_succ hj)
      · exact fun hnil j hj => hnil (j + 1) (Nat.succ_lt_succ hj) (Nat.succ_ne_zero j)
    | succ i =>
      have hi' := Nat.lt_of_succ_lt_succ hi
      have hle := (List.sublist_flatten_of_mem (List.getElem_mem hi')).length_le
      rw [List.flatten_cons, List.getElem_cons_succ]
      constructor
      · intro heq j hj hne
        have hlength := congrArg List.length heq
        rw [List.length_append] at hlength
        have hxs : xs = [] := List.eq_nil_of_length_eq_zero (by omega)
        cases j with
        | zero => exact hxs
        | succ j =>
          subst hxs
          exact (ih hi').1 heq j (Nat.lt_of_succ_lt_succ hj) fun h => hne (congrArg _ h)
      · intro hnil
        have hxs : xs = [] := hnil 0 (Nat.succ_pos _) (Nat.succ_ne_zero i).symm
        rw [hxs, List.nil_append]
        exact (ih hi').2 fun j hj hne =>
          hnil (j + 1) (Nat.succ_lt_succ hj) fun h => hne (Nat.succ.inj h)

theorem flatten_eq_flatten_take {α : Type} (xss : List (List α)) (n : Nat) :
    xss.flatten = (xss.take n).flatten ↔ ∀ xs ∈ xss.drop n, xs = [] := by
  have hsplit : xss.flatten = (xss.take n).flatten ++ (xss.drop n).flatten := by
    rw [← List.flatten_append, List.take_append_drop]
  rw [hsplit, List.append_right_eq_self, List.flatten_eq_nil_iff]

namespace Step

/-- The text that the step adds to what its node has recorded. -/
def wrote (id : NodeId) (r : Step) (s : RunState) : List Char :=
  ((r s).2.taken id).drop (s.taken id).length

/-- The texts recorded in order up to the first failure. -/
def textsOfAll (id : NodeId) : List Step → RunState → List (List Char)
  | [], _ => []
  | r :: rs, s => wrote id r s :: if (r s).1 then textsOfAll id rs (r s).2 else []

/-- The texts recorded by the candidates of an alternation. -/
def textsOfTrials (id : NodeId) (point base : Nat) : List Step → RunState → List (List Char)
  | [], _ => []
  | r :: rs, s =>
    wrote id r (s.moveTo id point) ::
      textsOfTrials id point base rs ((r (s.moveTo id point)).2.keepChildren id base)

/-- The texts recorded by the turns of a repetition, the one taken back included. -/
def textsOfTurns (id : NodeId) (r : Step) : Nat → RunState → List (List Char)
  | 0, _ => []
  | fuel + 1, s =>
    wrote id r s ::
      if (r s).1 && s.cursor id < (r s).2.cursor id then textsOfTurns id r fuel (r s).2 else []

/-- At work on its node, the step adds to what the node has recorded. -/
structure Writes (id : Nat) (r : Step) : Prop where
  work : Local id r
  keeps : ∀ φ, Lasting φ → Keeps (RunState.Records id φ) r

section Writes

variable {id : Nat} {r : Step} {rs : List Step} {s : RunState}

theorem lasting_isPrefix (cs : List Char) :
    Lasting fun literal => cs <+: (literal.getD "").toList := by
  intro literal t h
  rw [Option.getD_some, String.toList_append]
  exact h.trans (List.prefix_append _ _)

theorem Writes.taken_eq (h : Writes id r) (hs : s.tree.WellFormed) (hid : id < s.tree.size) :
    (r s).2.taken id = s.taken id ++ wrote id r s := by
  have hafter := h.keeps _ (lasting_isPrefix (s.taken id)) s ⟨hs, hid, List.prefix_refl _⟩
  exact (List.prefix_iff_eq_append.1 hafter.literal).symm

theorem taken_all (h : ∀ r ∈ rs, Writes id r) (hs : s.tree.WellFormed) (hid : id < s.tree.size) :
    (all rs s).2.taken id = s.taken id ++ (textsOfAll id rs s).flatten := by
  induction rs generalizing s with
  | nil => exact (List.append_nil _).symm
  | cons r rs ih =>
    obtain ⟨hfirst, hothers⟩ := List.forall_mem_cons.1 h
    have hr := hfirst.taken_eq hs hid
    have hext := hfirst.work s hs hid
    rw [textsOfAll, List.flatten_cons, ← List.append_assoc, ← hr, all]
    generalize r s = out at hext ⊢
    obtain ⟨ok, s'⟩ := out
    cases ok with
    | true => exact ih hothers hext.wellFormed (Nat.lt_of_lt_of_le hid hext.size_le)
    | false => exact (List.append_nil _).symm

theorem taken_sequence (h : ∀ r ∈ rs, Writes id r) (hs : s.tree.WellFormed)
    (hid : id < s.tree.size) :
    (sequence id rs s).2.taken id = s.taken id ++ (textsOfAll id rs s).flatten := by
  rw [← taken_all h hs hid, sequence]
  generalize all rs s = out
  obtain ⟨ok, s'⟩ := out
  cases ok with
  | true => rfl
  | false => exact s'.taken_modify id rfl

theorem taken_trials (h : ∀ r ∈ rs, Writes id r) (point base : Nat) (hs : s.tree.WellFormed)
    (hid : id < s.tree.size) :
    (trials id point base rs s).2.taken id =
      s.taken id ++ (textsOfTrials id point base rs s).flatten := by
  induction rs generalizing s with
  | nil => exact (List.append_nil _).symm
  | cons r rs ih =>
    obtain ⟨hfirst, hothers⟩ := List.forall_mem_cons.1 h
    have hmoved : (s.moveTo id point).tree.WellFormed := hs.modify rfl rfl
    have hid' : id < (s.moveTo id point).tree.size := (RunState.size_modify s id _).symm ▸ hid
    have hr := hfirst.taken_eq hmoved hid'
    have hext := hfirst.work _ hmoved hid'
    rw [show (s.moveTo id point).taken id = s.taken id from s.taken_modify id rfl] at hr
    rw [textsOfTrials, List.flatten_cons, ← List.append_assoc, ← hr, trials_cons]
    generalize (r (s.moveTo id point)).2 = s' at hext ⊢
    have hlt := Nat.lt_of_lt_of_le hid' hext.size_le
    have hcut : (s'.keepChildren id base).tree.WellFormed :=
      hext.wellFormed.sublistChildren hlt rfl (List.take_sublist _ _)
    have hrest := ih hothers hcut ((RunState.size_modify s' id _).symm ▸ hlt)
    rw [show (s'.keepChildren id base).taken id = s'.taken id from s'.taken_modify id rfl] at hrest
    exact hrest

theorem taken_alternation (h : ∀ r ∈ rs, Writes id r) (hs : s.tree.WellFormed)
    (hid : id < s.tree.size) :
    (alternation id rs s).2.taken id = s.taken id ++
      (textsOfTrials id (s.cursor id) (s.node id).children.length rs s.noteAlternation).flatten :=
  (congrArg (fun literal : Option String => (literal.getD "").toList)
    (literal_settle id (s.cursor id) _ _)).trans
      (taken_trials (s := s.noteAlternation) h _ _ hs hid)

theorem taken_takeBack (id : NodeId) (point base : Nat) (s : RunState) :
    (takeBack id point base s).taken id = s.taken id := by
  have hcut : (s.keepChildren id base).taken id = s.taken id := s.taken_modify id rfl
  exact (RunState.taken_modify _ id rfl).trans ((RunState.taken_modify _ id rfl).trans hcut)

theorem taken_turns (h : Writes id r) (fuel count : Nat) (hs : s.tree.WellFormed)
    (hid : id < s.tree.size) :
    (turns id r fuel count s).2.taken id = s.taken id ++ (textsOfTurns id r fuel s).flatten := by
  induction fuel generalizing count s with
  | zero => exact (List.append_nil _).symm
  | succ fuel ih =>
    have hr := h.taken_eq hs hid
    have hext := h.work s hs hid
    rw [textsOfTurns, List.flatten_cons, ← List.append_assoc, ← hr, turns_succ]
    split
    · exact ih (count + 1) hext.wellFormed (Nat.lt_of_lt_of_le hid hext.size_le)
    · rw [List.flatten_nil, List.append_nil]
      exact taken_takeBack id _ _ _

/-- One turn more is run than counted. -/
theorem length_textsOfTurns {src : Source} (h : Keeps (RunState.AtWork src id) r) {fuel : Nat}
    (count : Nat) (hs : s.AtWork src id) (hfuel : src.size - s.cursor id < fuel) :
    (textsOfTurns id r fuel s).length + count = (turns id r fuel count s).1 + 1 := by
  induction fuel generalizing count s with
  | zero => exact absurd hfuel (Nat.not_lt_zero _)
  | succ fuel ih =>
    have hnext := h s hs
    rw [textsOfTurns, turns_succ, List.length_cons]
    split
    · next hon =>
      have hmoved := of_decide_eq_true (Bool.and_eq_true_iff.1 hon).2
      have hle := hnext.cursor_le
      have hrest := ih (count + 1) hnext (by omega)
      omega
    · rw [List.length_nil, Nat.zero_add, Nat.add_comm]

end Writes

end Step

theorem Expr.writes_step (ctx : Context) {run : NodeId → Step} (id : Nat)
    (h : ∀ child : Nat, Step.Local child (run child)) (e : Expr) :
    Step.Writes id (e.step ctx run id) :=
  ⟨Expr.local_step ctx id h e, fun _ hφ => Expr.records_step id h e (.inr hφ)⟩

namespace Context

/-- Attempts that are given up leave their texts. A sequence, an alternation and a repetition add to
what their node has recorded the texts of all parts that were run, of all candidates and of all
turns. So a sequence that fails leaves the record as it was exactly if its parts recorded nothing,
an alternation adds the text of one candidate alone exactly if the others recorded nothing, and a
repetition adds the texts of the turns that count alone exactly if the last one recorded nothing;
and a body that takes no text by itself leaves the record as it was. -/
theorem texts_of_attempts (ctx : Context) (left id : Nat) (s : RunState)
    (hs : s.AtWork ctx.source id) :
    (∀ es : List Expr,
      let rs := Expr.steps ctx (ctx.attempt left) id es
      let s' := (Step.sequence id rs s).2
      let texts := Step.textsOfAll id rs s
      s'.taken id = s.taken id ++ texts.flatten ∧
        (s'.taken id = s.taken id ↔ ∀ cs ∈ texts, cs = [])) ∧
    (∀ es : List Expr,
      let rs := Expr.steps ctx (ctx.attempt left) id es
      let s' := (Step.alternation id rs s).2
      let texts := Step.textsOfTrials id (s.cursor id) (s.node id).children.length rs
        s.noteAlternation
      s'.taken id = s.taken id ++ texts.flatten ∧
        (s'.taken id = s.taken id ↔ ∀ cs ∈ texts, cs = []) ∧
        ∀ (i : Nat) (hi : i < texts.length), s'.taken id = s.taken id ++ texts[i] ↔
          ∀ (j : Nat) (hj : j < texts.length), j ≠ i → texts[j] = []) ∧
    (∀ e : Expr,
      let r := e.step ctx (ctx.attempt left) id
      let out := Step.iterate ctx id r s
      let texts := Step.textsOfTurns id r (ctx.source.size - s.cursor id + 1) s
      texts.length = out.1 + 1 ∧ out.2.taken id = s.taken id ++ texts.flatten ∧
        (out.2.taken id = s.taken id ++ (texts.take out.1).flatten ↔
          ∀ cs ∈ texts.drop out.1, cs = [])) ∧
    ∀ e : Expr, e.Wordless → ((e.step ctx (ctx.attempt left) id s).2.node id).literal =
      (s.node id).literal := by
  have hlocal := local_attempt ctx left
  have hwrites : ∀ es : List Expr, ∀ r ∈ Expr.steps ctx (ctx.attempt left) id es,
      Step.Writes id r := by
    intro es r hr
    rw [Expr.steps_eq] at hr
    obtain ⟨e, -, rfl⟩ := List.mem_map.1 hr
    exact Expr.writes_step ctx id hlocal e
  refine ⟨fun es => ?_, fun es => ?_, fun e => ?_, fun e he => ?_⟩
  · have htaken := Step.taken_sequence (hwrites es) hs.wellFormed hs.lt_size
    refine ⟨htaken, ?_⟩
    rw [htaken, List.append_right_eq_self, List.flatten_eq_nil_iff]
  · have htaken := Step.taken_alternation (hwrites es) hs.wellFormed hs.lt_size
    refine ⟨htaken, ?_, fun i hi => ?_⟩
    · rw [htaken, List.append_right_eq_self, List.flatten_eq_nil_iff]
    · rw [htaken, List.append_cancel_left_eq]
      exact flatten_eq_getElem hi
  · have hlength := Step.length_textsOfTurns (atWork_step ctx left id e) 0 hs
      (Nat.lt_add_one (ctx.source.size - s.cursor id))
    have htaken := Step.taken_turns (Expr.writes_step ctx id hlocal e)
      (ctx.source.size - s.cursor id + 1) 0 hs.wellFormed hs.lt_size
    refine ⟨hlength, htaken, ?_⟩
    rw [Step.iterate, htaken, List.append_cancel_left_eq]
    exact flatten_eq_flatten_take _ _
  · exact (Expr.records_step id hlocal e (.inl he) (φ := fun literal =>
      literal = (s.node id).literal) s ⟨hs.wellFormed, hs.lt_size, rfl⟩).literal

/-- A rule that first tries two letters and then one. -/
def leftovers : Context where
  source := .ofString "ac"
  rules := .merge .empty .empty (.ofList [
    ("ROOT", .alt [.all [.byte (.single 97), .byte (.single 98)], .byte (.single 97)])])

/-- The candidate that fails has taken the first letter before, so that the letter is recorded
twice; a turn and a sequence that fail leave it as well. -/
theorem texts_of_attempts_leftovers :
    let s := RunState.start leftovers "ROOT"
    let step := fun e : Expr => e.step leftovers (leftovers.attempt 255) Tree.root
    let failing : List Expr := [.byte (.single 97), .byte (.single 98)]
    (step (.alt [.all failing, .byte (.single 97)]) s).1 = true ∧
      (step (.alt [.all failing, .byte (.single 97)]) s).2.cursor Tree.root = 1 ∧
      Step.wrote Tree.root (step (.byte (.single 97))) s = ['a'] ∧
      (step (.alt [.all failing, .byte (.single 97)]) s).2.taken Tree.root =
        s.taken Tree.root ++ ['a', 'a'] ∧
      (Step.iterate leftovers Tree.root (step (.all failing)) s).1 = 0 ∧
      (Step.iterate leftovers Tree.root (step (.all failing)) s).2.taken Tree.root =
        s.taken Tree.root ++ ['a'] ∧
      (step (.seq failing) s).1 = false ∧
      (step (.seq failing) s).2.taken Tree.root = s.taken Tree.root ++ ['a'] := by
  decide +kernel

/-- What the theorem says of the candidates there: the second alone would have been enough, had the
first recorded nothing. -/
theorem texts_of_attempts_candidates :
    let s := RunState.start leftovers "ROOT"
    let rs := Expr.steps leftovers (leftovers.attempt 255) Tree.root
      [.all [.byte (.single 97), .byte (.single 98)], .byte (.single 97)]
    s.AtWork leftovers.source Tree.root ∧
      (Step.alternation Tree.root rs s).2.taken Tree.root ≠ s.taken Tree.root ++ ['a'] ∧
      (Step.alternation Tree.root rs s).2.taken Tree.root =
        s.taken Tree.root ++ [['a'], ['a']].flatten := by
  intro s rs
  have hwork : s.AtWork leftovers.source Tree.root := atWork_start leftovers "ROOT"
  have htexts : Step.textsOfTrials Tree.root (s.cursor Tree.root)
      (s.node Tree.root).children.length rs s.noteAlternation = [['a'], ['a']] := by
    decide +kernel
  obtain ⟨-, hcandidates, -, -⟩ := texts_of_attempts leftovers 255 Tree.root s hwork
  obtain ⟨htaken, -, hone⟩ := hcandidates
    [.all [.byte (.single 97), .byte (.single 98)], .byte (.single 97)]
  refine ⟨hwork, fun hclaim => ?_, ?_⟩
  · have hothers := (hone 1 (by decide +kernel)).1 (hclaim.trans (by decide +kernel))
    exact absurd (hothers 0 (by decide +kernel) (by decide)) (by decide +kernel)
  · exact htaken.trans (by rw [htexts])

end Context

end RankedGrammar
