import RankedGrammar.Match.Attempt

/-!
The kinds of bodies. A body calls a rule, is a terminal at work on its node, or puts other bodies
together. An induction on bodies says what it says of calls and of terminals once for all of them.
-/
namespace RankedGrammar

/-- The body that makes a call and does nothing else. -/
def Call.body : Call → Expr
  | ref rule => .ref rule
  | named rule caption => .named rule caption
  | lit t => .lit t

theorem Call.step_body (c : Call) (ctx : Context) (run : NodeId → Step) (id : NodeId) :
    c.body.step ctx run id = Step.call ctx run id c := by
  cases c <;> rfl

/-! What a step does after the result of another decides what negations and lists of steps do. -/

namespace Step

theorem all_cons (r : Step) (rs : List Step) :
    all (r :: rs) = ifElse r (all rs) fun s => (false, s) :=
  rfl

theorem any_cons (r : Step) (rs : List Step) :
    any (r :: rs) = ifElse r (fun s => (true, s)) (any rs) :=
  rfl

theorem negate_eq (r : Step) : negate r = ifElse r (fun s => (false, s)) fun s => (true, s) := by
  funext s
  unfold negate ifElse
  generalize r s = out
  obtain ⟨ok, s'⟩ := out
  cases ok <;> rfl

end Step

namespace Expr

/-- The body is the terminal `f` at work on its node. -/
inductive Own (src : Source) : Expr → Terminal → Prop where
  | byte (k : ByteClass) : Own src (.byte k) (.byte src k)
  | text (t : String) : Own src (.text t) (.text src t)
  | attached : Own src .attached (.attached src)
  | pattern (p : Text.Pattern) : Own src (.pattern p) (.pattern src p)
  | bytes (k : ByteClass) (least : Nat) : Own src (.bytes k least) (.bytes src k least)
  | look (k : ByteClass) (offset : Nat) : Own src (.look k offset) (.look src k offset)
  | skip (amount : Nat) : Own src (.skip amount) (.skip src amount)
  | record (t : String) : Own src (.record t) (.record t)
  | expect (name : String) : Own src (.expect name) (.expect src name)
  | atEnd : Own src .atEnd (.atEnd src)

theorem Own.step_eq {ctx : Context} {e : Expr} {f : Terminal} (h : e.Own ctx.source f)
    (run : NodeId → Step) (id : NodeId) : e.step ctx run id = Step.own id f := by
  cases h <;> rfl

/-- Induction on the shape of a body. -/
@[elab_as_elim]
theorem induct {P : Expr → Prop} (src : Source) (call : ∀ c : Call, P c.body)
    (seq : ∀ es, (∀ e ∈ es, P e) → P (.seq es)) (alt : ∀ es, (∀ e ∈ es, P e) → P (.alt es))
    (many : ∀ e, P e → P (.many e)) (tally : ∀ e least, P e → P (.tally e least))
    (counted : ∀ e test, P e → P (.counted e test))
    (own : ∀ {e : Expr} {f : Terminal}, e.Own src f → P e) (probe : ∀ label, P (.probe label))
    (not : ∀ e, P e → P (.not e)) (all : ∀ es, (∀ e ∈ es, P e) → P (.all es))
    (any : ∀ es, (∀ e ∈ es, P e) → P (.any es))
    (ifElse : ∀ e yes no, P e → P yes → P no → P (.ifElse e yes no))
    (const : ∀ ok, P (.const ok)) (e : Expr) : P e :=
  have ih := fun part (_ : sizeOf part < sizeOf e) =>
    induct src call seq alt many tally counted own probe not all any ifElse const part
  have hpart : ∀ {part : Expr} {es : List Expr}, part ∈ es → sizeOf part < 1 + sizeOf es :=
    fun hmem => Nat.lt_add_left 1 (List.sizeOf_lt_of_mem hmem)
  match e with
  | .ref rule => call (.ref rule)
  | .named rule caption => call (.named rule caption)
  | .lit t => call (.lit t)
  | .seq es => seq es fun part hmem => ih part (by simpa using hpart hmem)
  | .alt es => alt es fun part hmem => ih part (by simpa using hpart hmem)
  | .many part => many part (ih part (by simp))
  | .tally part least => tally part least (ih part (by simp; omega))
  | .counted part test => counted part test (ih part (by simp))
  | .byte k => own (.byte k)
  | .text t => own (.text t)
  | .attached => own .attached
  | .pattern p => own (.pattern p)
  | .bytes k least => own (.bytes k least)
  | .look k offset => own (.look k offset)
  | .skip amount => own (.skip amount)
  | .record t => own (.record t)
  | .expect name => own (.expect name)
  | .atEnd => own .atEnd
  | .probe label => probe label
  | .not part => not part (ih part (by simp))
  | .all es => all es fun part hmem => ih part (by simpa using hpart hmem)
  | .any es => any es fun part hmem => ih part (by simpa using hpart hmem)
  | .ifElse part yes no =>
    have hsize : sizeOf (Expr.ifElse part yes no) =
      1 + sizeOf part + sizeOf yes + sizeOf no := rfl
    ifElse part yes no (ih part (by omega)) (ih yes (by omega)) (ih no (by omega))
  | .const ok => const ok
termination_by sizeOf e

section Steps

variable {ctx : Context} {run : NodeId → Step} {id : NodeId} {es : List Expr}

theorem steps_eq (ctx : Context) (run : NodeId → Step) (id : NodeId) (es : List Expr) :
    Expr.steps ctx run id es = es.map (·.step ctx run id) := by
  induction es with
  | nil => rfl
  | cons e es ih => rw [Expr.steps, ih, List.map_cons]

theorem forall_mem_steps {P : Step → Prop} (h : ∀ e ∈ es, P (e.step ctx run id)) :
    ∀ r ∈ Expr.steps ctx run id es, P r := by
  rw [steps_eq]
  exact List.forall_mem_map.2 h

end Steps

end Expr

end RankedGrammar
