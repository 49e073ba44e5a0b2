import Mathlib.Data.List.Perm.Basic

/-! Trees of labels, apart from any table, with the orders in which their labels may be listed. -/
namespace RankedGrammar

/-- A label with the branches below it, in order. -/
inductive Branch (α : Type) where
  | mk (label : α) (branches : List (Branch α))

namespace Branch

variable {α β : Type}

def label : Branch α → α
  | mk a _ => a

def branches : Branch α → List (Branch α)
  | mk _ bs => bs

@[simp] theorem label_mk (a : α) (bs : List (Branch α)) : (mk a bs).label = a := rfl

@[simp] theorem branches_mk (a : α) (bs : List (Branch α)) : (mk a bs).branches = bs := rfl

@[simp] theorem mk_label_branches (b : Branch α) : mk b.label b.branches = b := by
  cases b; rfl

/-- Induction over a branch with a hypothesis for every branch right below it. -/
theorem induct {P : Branch α → Prop} (step : ∀ a bs, (∀ b ∈ bs, P b) → P (mk a bs))
    (b : Branch α) : P b := by
  refine @Branch.rec α P (fun bs => ∀ b ∈ bs, P b) step ?_ ?_ b
  · intro b hb
    cases hb
  · intro b bs hb hbs c hc
    cases List.mem_cons.1 hc with
    | inl h => exact h ▸ hb
    | inr h => exact hbs c h

mutual

/-- The labels, each before those below it. -/
def preorder : Branch α → List α
  | mk a bs => a :: preorders bs

def preorders : List (Branch α) → List α
  | [] => []
  | b :: bs => b.preorder ++ preorders bs

end

mutual

/-- The labels, each after those below it. -/
def postorder : Branch α → List α
  | mk a bs => postorders bs ++ [a]

def postorders : List (Branch α) → List α
  | [] => []
  | b :: bs => b.postorder ++ postorders bs

end

mutual

def map (f : α → β) : Branch α → Branch β
  | mk a bs => mk (f a) (maps f bs)

def maps (f : α → β) : List (Branch α) → List (Branch β)
  | [] => []
  | b :: bs => b.map f :: maps f bs

end

theorem preorders_eq (bs : List (Branch α)) : preorders bs = bs.flatMap preorder := by
  induction bs with
  | nil => simp [preorders]
  | cons b bs ih => simp [preorders, ih]

theorem postorders_eq (bs : List (Branch α)) : postorders bs = bs.flatMap postorder := by
  induction bs with
  | nil => simp [postorders]
  | cons b bs ih => simp [postorders, ih]

theorem maps_eq (f : α → β) (bs : List (Branch α)) : maps f bs = bs.map (map f) := by
  induction bs with
  | nil => simp [maps]
  | cons b bs ih => simp [maps, ih]

@[simp] theorem preorder_mk (a : α) (bs : List (Branch α)) :
    (mk a bs).preorder = a :: bs.flatMap preorder := by
  rw [preorder, preorders_eq]

theorem label_mem_preorder (b : Branch α) : b.label ∈ b.preorder := by
  obtain ⟨a, bs⟩ := b
  rw [preorder_mk]
  exact List.mem_cons_self

@[simp] theorem postorder_mk (a : α) (bs : List (Branch α)) :
    (mk a bs).postorder = bs.flatMap postorder ++ [a] := by
  rw [postorder, postorders_eq]

@[simp] theorem map_mk (f : α → β) (a : α) (bs : List (Branch α)) :
    (mk a bs).map f = mk (f a) (bs.map (map f)) := by
  rw [map, maps_eq]

theorem preorder_map (f : α → β) (b : Branch α) : (b.map f).preorder = b.preorder.map f := by
  induction b using induct with
  | step a bs ih =>
    simp only [map_mk, preorder_mk, List.map_cons, List.flatMap_map, List.map_flatMap]
    rw [List.flatMap_congr ih]

theorem map_congr {f g : α → β} {b : Branch α} (h : ∀ a ∈ b.preorder, f a = g a) :
    b.map f = b.map g := by
  induction b using induct with
  | step a bs ih =>
    simp only [preorder_mk, List.mem_cons, List.mem_flatMap, forall_eq_or_imp] at h
    simp only [map_mk, mk.injEq, List.map_inj_left]
    exact ⟨h.1, fun b hb => ih b hb fun x hx => h.2 x ⟨b, hb, hx⟩⟩

/-- Both orders list the same labels. -/
theorem postorder_perm_preorder (b : Branch α) : b.postorder.Perm b.preorder := by
  induction b using induct with
  | step a bs ih =>
    rw [postorder_mk, preorder_mk]
    refine (List.perm_append_singleton a _).trans (List.Perm.cons a ?_)
    exact List.Perm.flatMap_left bs ih

end Branch

end RankedGrammar
