import Mathlib.Data.List.Forall2
import Mathlib.Order.RelClasses

/-!
Entries under keys in increasing order, none of them empty. All that there is to tell of such a list is
what it holds under each key: lists that agree under every key agree entry by entry.
-/
namespace RankedGrammar.Keyed

variable {K α γ : Type} {key : α → K} {val : α → List γ} {P : List γ → Prop} {k : K} {a : α}
  {xs ys : List α}

/-- The keys increase, and what stands under them is of a kind and not empty. -/
structure Sound [LT K] (key : α → K) (val : α → List γ) (P : List γ → Prop) (xs : List α) :
    Prop where
  increasing : xs.Pairwise fun a b => key a < key b
  full : ∀ a ∈ xs, val a ≠ []
  kind : ∀ a ∈ xs, P (val a)

theorem sound_nil [LT K] : Sound key val P [] := ⟨.nil, by simp, by simp⟩

theorem sound_cons [LT K] : Sound key val P (a :: xs) ↔
    (∀ x ∈ xs, key a < key x) ∧ val a ≠ [] ∧ P (val a) ∧ Sound key val P xs := by
  constructor
  · rintro ⟨hkeys, hfull, hkind⟩
    obtain ⟨hlt, hkeys⟩ := List.pairwise_cons.1 hkeys
    obtain ⟨ha, hfull⟩ := List.forall_mem_cons.1 hfull
    obtain ⟨hP, hkind⟩ := List.forall_mem_cons.1 hkind
    exact ⟨hlt, ha, hP, hkeys, hfull, hkind⟩
  · rintro ⟨hlt, ha, hP, hkeys, hfull, hkind⟩
    exact ⟨.cons hlt hkeys, List.forall_mem_cons.2 ⟨ha, hfull⟩, List.forall_mem_cons.2 ⟨hP, hkind⟩⟩

theorem isEqv_iff_forall₂ {r : α → α → Bool} :
    xs.isEqv ys r ↔ List.Forall₂ (fun a b => r a b) xs ys := by
  induction xs generalizing ys with
  | nil => cases ys <;> simp [List.isEqv]
  | cons a xs ih => cases ys <;> simp [List.isEqv, ih]

variable [DecidableEq K]

/-- What stands under a key, nothing where there is no entry. -/
def get (key : α → K) (val : α → List γ) (k : K) (xs : List α) : List γ :=
  ((xs.find? (key · = k)).map val).getD []

theorem get_self : get key val (key a) (a :: xs) = val a := by simp [get]

theorem get_of_ne (h : key a ≠ k) : get key val k (a :: xs) = get key val k xs := by
  simp [get, h]

theorem get_cons : get key val k (a :: xs) = if key a = k then val a else get key val k xs := by
  split
  · next h => exact h ▸ get_self
  · next h => exact get_of_ne h

theorem get_eq_nil (h : ∀ x ∈ xs, key x ≠ k) : get key val k xs = [] := by
  have hnone : xs.find? (key · = k) = none := by simpa using h
  rw [get, hnone]
  rfl

theorem exists_of_get (h : get key val k xs ≠ []) :
    ∃ x ∈ xs, key x = k ∧ val x = get key val k xs := by
  unfold get at h ⊢
  cases hfound : xs.find? (key · = k) with
  | none =>
    rw [hfound] at h
    exact absurd rfl h
  | some x =>
    have hkey : key x = k := by simpa using List.find?_some hfound
    exact ⟨x, List.mem_of_find?_eq_some hfound, hkey, rfl⟩

theorem Sound.get_kind [LT K] (h : Sound key val P xs) (hnil : P []) (k : K) :
    P (get key val k xs) := by
  by_cases hget : get key val k xs = []
  · rwa [hget]
  · obtain ⟨x, hx, -, hval⟩ := exists_of_get hget
    exact hval ▸ h.kind x hx

theorem get_of_forall₂ {Q : List γ → List γ → Prop} (hnil : Q [] [])
    (h : List.Forall₂ (fun a b => key a = key b ∧ Q (val a) (val b)) xs ys) (k : K) :
    Q (get key val k xs) (get key val k ys) := by
  induction h with
  | nil => exact hnil
  | @cons a b xs ys hab _ ih =>
    by_cases hk : key a = k
    · subst hk
      rw [get_self, hab.1, get_self]
      exact hab.2
    · rw [get_of_ne hk, get_of_ne (hab.1 ▸ hk)]
      exact ih

variable [LT K] [IsStrictTotalOrder K (· < ·)]

theorem get_of_lt (h : ∀ x ∈ xs, k < key x) : get key val k xs = [] := by
  refine get_eq_nil fun x hx heq => ?_
  have hlt := h x hx
  rw [heq] at hlt
  exact irrefl k hlt

theorem Sound.get_of_mem (h : Sound key val P xs) {x : α} (hx : x ∈ xs) :
    get key val (key x) xs = val x := by
  induction xs with
  | nil => cases hx
  | cons a xs ih =>
    obtain ⟨hlt, -, -, hrest⟩ := sound_cons.1 h
    cases List.mem_cons.1 hx with
    | inl heq => rw [heq, get_self]
    | inr hin =>
      rw [get_of_ne (ne_of_irrefl (hlt x hin)), ih hrest hin]

/-- The property holds under every key, so it holds of the entries in turn. -/
theorem forall₂_of_get {Q : List γ → List γ → Prop} (hnil : Q [] [])
    (hleft : ∀ {cs}, Q cs [] → cs = []) (hright : ∀ {cs}, Q [] cs → cs = [])
    (hxs : Sound key val P xs) (hys : Sound key val P ys)
    (h : ∀ k, Q (get key val k xs) (get key val k ys)) :
    List.Forall₂ (fun a b => key a = key b ∧ Q (val a) (val b)) xs ys := by
  induction xs generalizing ys with
  | nil =>
    cases ys with
    | nil => exact .nil
    | cons b ys =>
      have hb := h (key b)
      rw [get_self] at hb
      exact absurd (hright hb) (sound_cons.1 hys).2.1
  | cons a xs ih =>
    obtain ⟨hlt, hfull, -, hrest⟩ := sound_cons.1 hxs
    cases ys with
    | nil =>
      have ha := h (key a)
      rw [get_self] at ha
      exact absurd (hleft ha) hfull
    | cons b ys =>
      obtain ⟨hlt', hfull', -, hrest'⟩ := sound_cons.1 hys
      have hkey : key a = key b := by
        rcases trichotomous_of (· < ·) (key a) (key b) with hab | heq | hba
        · have hnone : get key val (key a) (b :: ys) = [] := get_of_lt
            (List.forall_mem_cons.2 ⟨hab, fun y hy => trans_of (· < ·) hab (hlt' y hy)⟩)
          have ha := h (key a)
          rw [get_self, hnone] at ha
          exact absurd (hleft ha) hfull
        · exact heq
        · have hnone : get key val (key b) (a :: xs) = [] := get_of_lt
            (List.forall_mem_cons.2 ⟨hba, fun x hx => trans_of (· < ·) hba (hlt x hx)⟩)
          have hb := h (key b)
          rw [get_self, hnone] at hb
          exact absurd (hright hb) hfull'
      have hval := h (key a)
      rw [get_self, hkey, get_self] at hval
      refine .cons ⟨hkey, hval⟩ (ih hrest hrest' fun k => ?_)
      by_cases hk : key a = k
      · subst hk
        rw [get_of_lt hlt, get_of_lt (hkey ▸ hlt')]
        exact hnil
      · have hsame := h k
        rwa [get_of_ne hk, get_of_ne (hkey ▸ hk)] at hsame

theorem forall₂_iff_get {Q : List γ → List γ → Prop} (hnil : Q [] [])
    (hleft : ∀ {cs}, Q cs [] → cs = []) (hright : ∀ {cs}, Q [] cs → cs = [])
    (hxs : Sound key val P xs) (hys : Sound key val P ys) :
    List.Forall₂ (fun a b => key a = key b ∧ Q (val a) (val b)) xs ys ↔
      ∀ k, Q (get key val k xs) (get key val k ys) :=
  ⟨get_of_forall₂ hnil, forall₂_of_get hnil hleft hright hxs hys⟩

end RankedGrammar.Keyed
