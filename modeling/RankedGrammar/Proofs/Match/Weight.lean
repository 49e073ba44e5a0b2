import RankedGrammar.Proofs.Match.Lexeme

/-!
Weights. The heaviest of some candidates is known from bounds on what each of them adds, and a call
adds its own node, unless that is blank, to what its body adds.
-/
namespace RankedGrammar

namespace Step

variable {κ : Type} {weight : κ → Nat} {number : Nat} {ts : List (Trial κ)} {t : Trial κ}
  {xs : List (Ranked κ)} {x : Ranked κ}

theorem totalWeight_append (xs ys : List κ) :
    totalWeight weight (xs ++ ys) = totalWeight weight xs + totalWeight weight ys := by
  induction xs with
  | nil => exact (Nat.zero_add _).symm
  | cons x xs ih => rw [List.cons_append, totalWeight, ih, totalWeight, Nat.add_assoc]

theorem weight_of_ranked (h : x ∈ ranked weight number ts) :
    x.weight = totalWeight weight x.trial.children := by
  induction ts generalizing number with
  | nil => simp [ranked] at h
  | cons t ts ih =>
    rw [ranked] at h
    split at h
    · rcases List.mem_cons.1 h with rfl | h
      · rfl
      · exact ih h
    · exact ih h

theorem exists_ranked (ht : t ∈ ts) (hmatched : t.matched = true) :
    ∃ x ∈ ranked weight number ts, x.trial = t := by
  induction ts generalizing number with
  | nil => cases ht
  | cons t' ts ih =>
    rw [ranked]
    rcases List.mem_cons.1 ht with rfl | ht
    · rw [if_pos hmatched]
      exact ⟨_, List.mem_cons_self, rfl⟩
    · obtain ⟨x, hx, heq⟩ : ∃ x ∈ ranked weight (number + 1) ts, x.trial = t := ih ht
      split
      · exact ⟨x, List.mem_cons_of_mem _ hx, heq⟩
      · exact ⟨x, hx, heq⟩

theorem heaviest_isSome (h : x ∈ xs) : (heaviest xs).isSome := by
  cases xs with
  | nil => cases h
  | cons y ys =>
    rw [heaviest]
    split
    · rfl
    · split <;> rfl

theorem le_heaviest (h : heaviest xs = some x) : ∀ y ∈ xs, y.weight ≤ x.weight := by
  induction xs generalizing x with
  | nil => cases h
  | cons z zs ih =>
    rw [heaviest] at h
    rw [List.forall_mem_cons]
    cases hzs : heaviest zs with
    | none =>
      rw [hzs] at h
      cases h
      refine ⟨Nat.le_refl _, fun y hy => ?_⟩
      have hsome := heaviest_isSome hy
      rw [hzs] at hsome
      cases hsome
    | some best =>
      have hbest := ih hzs
      rw [hzs] at h
      dsimp only at h
      split at h
      · next hlt =>
        cases h
        exact ⟨Nat.le_of_lt hlt, hbest⟩
      · next hle =>
        cases h
        exact ⟨Nat.le_refl _, fun y hy => Nat.le_trans (hbest y hy) (Nat.le_of_not_lt hle)⟩

end Step

open Step (totalWeight totalWeight_append)

theorem Sprout.weight_mk (n : Node) (bs : List Sprout) :
    Sprout.weight (.mk n bs) =
      (if n.name = blankName then 0 else 1) + totalWeight Sprout.weight bs := by
  have hbranches : (bs.flatMap Branch.preorder).countP (fun n => n.name ≠ blankName) =
      totalWeight Sprout.weight bs := by
    induction bs with
    | nil => rfl
    | cons b bs ih => rw [List.flatMap_cons, List.countP_append, ih, totalWeight, Sprout.weight]
  rw [Sprout.weight, Branch.preorder_mk, List.countP_cons, hbranches, Nat.add_comm]
  by_cases hname : n.name = blankName <;> simp [hname]

namespace Growth

/-- The weight of the branches that a success adds. -/
def Weighs (src : Source) (P : Nat → Prop) (g : Growth) : Prop :=
  ∀ b b', (src.tail? b.cursor).isSome → g b = some (true, b') →
    P (totalWeight Sprout.weight (b'.branches.drop b.branches.length))

variable {ctx : Context} {g : Growth} {gs : List Growth} {k : Nat}

/-- A sequence adds what its first part adds and more. -/
theorem weighs_sequence_cons (hg : Builds ctx g) (hgs : ∀ g ∈ gs, Builds ctx g)
    (hweighs : Weighs ctx.source (k ≤ ·) g) :
    Weighs ctx.source (k ≤ ·) (sequence (g :: gs)) := by
  intro b b' hb hrun
  obtain ⟨b₁, hfirst, hrest⟩ := exists_of_sequence_cons hrun
  have hgrows := hg b true b₁ hb hfirst
  have hothers := builds_sequence hgs b₁ true b' (hgrows.tail?_cursor hb) hrest
  obtain ⟨new, hnew, -⟩ := hgrows.branches
  obtain ⟨new', hnew', -⟩ := hothers.branches
  have hle := hweighs b b₁ hb hfirst
  rw [hnew, List.drop_left] at hle
  rw [hnew', hnew, List.append_assoc, List.drop_left, totalWeight_append]
  exact Nat.le_add_right_of_le hle

theorem weighs_call {P : Nat → Prop} {grow : Growth} {c : Call}
    (h : ∀ start child, (ctx.source.tail? start).isSome →
      grow (seed ctx c start) = some (true, child) → P child.weight) :
    Weighs ctx.source P (call ctx grow c) := by
  intro b b' hb hrun
  obtain ⟨child, hgrow, rfl⟩ := exists_of_call hrun
  have hchild := h b.cursor child hb hgrow
  simpa [totalWeight] using hchild

end Growth

namespace Expr

variable {ctx : Context} {e body : Expr} {es : List Expr} {name : String} {k : Nat}

/-- The weight of the branches that a success of the body adds, however deeply rules may be nested.
-/
def Weighs (ctx : Context) (P : Nat → Prop) (e : Expr) : Prop :=
  ∀ left, Growth.Weighs ctx.source P (e.growth ctx (ctx.grow left))

theorem weighs_nonneg (e : Expr) : e.Weighs ctx (0 ≤ ·) := fun _ _ _ _ _ => Nat.zero_le _

theorem weighs_seq (hrules : ctx.rules.Lexical) (he : e.Composite) (hes : ∀ e ∈ es, e.Composite)
    (h : e.Weighs ctx (k ≤ ·)) : (Expr.seq (e :: es)).Weighs ctx (k ≤ ·) := by
  intro left
  have hyields := Context.yields_grow hrules left
  have hbuilds : ∀ g ∈ growths ctx (ctx.grow left) es, Growth.Builds ctx g :=
    forall_mem_growths fun x hx => (hes x hx).builds hyields
  exact Growth.weighs_sequence_cons (he.builds hyields) hbuilds (h left)

theorem weighs_ref_of_leaf (hrule : ctx.rules.rule? name = some body) (hleaf : body.Leaf) :
    (Expr.ref name).Weighs ctx (· = if name = blankName then 0 else 1) := by
  intro left
  apply Growth.weighs_call
  intro start child hstart hgrow
  obtain ⟨below, b, rfl, hrun, rfl⟩ := Context.exists_of_grow hrule hgrow
  have hempty : (Growth.seed ctx (.ref name) start).label.Taken ctx.source := .nil hstart
  obtain ⟨hb, -, horigin⟩ := hleaf.fills (ctx.grow below) _ true b rfl hempty hrun
  have hname : b.label.name = name := horigin.name
  rw [Sprout.weight_mk, hb, hname]
  rfl

theorem weighs_ref_of_composite (hrules : ctx.rules.Lexical) (hname : name ≠ blankName)
    (hrule : ctx.rules.rule? name = some body) (hcomposite : body.Composite)
    (h : body.Weighs ctx (k ≤ ·)) : (Expr.ref name).Weighs ctx (k + 1 ≤ ·) := by
  intro left
  apply Growth.weighs_call
  intro start child hstart hgrow
  obtain ⟨below, b, rfl, hrun, rfl⟩ := Context.exists_of_grow hrule hgrow
  have hyields := Context.yields_grow hrules below
  let seed := Growth.seed ctx (.ref name) start
  have hb : b.label.name = name := (hcomposite.builds hyields seed true b hstart hrun).origin.name
  have hle : k ≤ totalWeight Sprout.weight b.branches := h below seed b hstart hrun
  rw [Sprout.weight_mk, hb, if_neg hname, Nat.add_comm]
  exact Nat.add_le_add_left hle 1

end Expr

end RankedGrammar
