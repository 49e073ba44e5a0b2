/-!
Characters counted and cut in UTF-8 bytes. A cut is possible only between two characters, so
`takeBytes?` and `dropBytes?` answer `none` for an offset inside a character or past the end.
-/
namespace RankedGrammar.Text

def utf8Bytes (cs : List Char) : List UInt8 := cs.flatMap String.utf8EncodeChar

def byteLength : List Char → Nat
  | [] => 0
  | c :: cs => c.utf8Size + byteLength cs

/-- The characters that take up exactly the first `n` bytes. -/
def takeBytes? : Nat → List Char → Option (List Char)
  | 0, _ => some []
  | _ + 1, [] => none
  | n + 1, c :: cs =>
    if c.utf8Size ≤ n + 1 then (takeBytes? (n + 1 - c.utf8Size) cs).map (c :: ·) else none

/-- The characters that follow the first `n` bytes. -/
def dropBytes? : Nat → List Char → Option (List Char)
  | 0, cs => some cs
  | _ + 1, [] => none
  | n + 1, c :: cs => if c.utf8Size ≤ n + 1 then dropBytes? (n + 1 - c.utf8Size) cs else none

/-- What follows each byte offset in turn, the end of the text included. -/
def tails : List Char → List (Option (List Char))
  | [] => [some []]
  | c :: cs => some (c :: cs) :: (List.replicate (c.utf8Size - 1) none ++ tails cs)

@[simp] theorem byteLength_nil : byteLength [] = 0 := rfl

@[simp] theorem byteLength_cons (c : Char) (cs : List Char) :
    byteLength (c :: cs) = c.utf8Size + byteLength cs := rfl

@[simp] theorem byteLength_append (cs ds : List Char) :
    byteLength (cs ++ ds) = byteLength cs + byteLength ds := by
  induction cs with
  | nil => simp
  | cons c cs ih => simp [ih, Nat.add_assoc]

theorem length_utf8Bytes (cs : List Char) : (utf8Bytes cs).length = byteLength cs := by
  induction cs with
  | nil => rfl
  | cons c cs ih =>
    simp only [utf8Bytes, List.flatMap_cons, List.length_append, String.length_utf8EncodeChar,
      byteLength_cons] at ih ⊢
    omega

theorem takeBytes?_eq_some_iff {n : Nat} {cs as : List Char} :
    takeBytes? n cs = some as ↔ as <+: cs ∧ byteLength as = n := by
  induction cs generalizing n as with
  | nil => cases n <;> cases as <;> simp [takeBytes?]
  | cons c cs ih =>
    cases n with
    | zero =>
      cases as with
      | nil => simp [takeBytes?]
      | cons a as =>
        have := a.utf8Size_pos
        simp [takeBytes?]
        omega
    | succ n =>
      have hc := c.utf8Size_pos
      cases as with
      | nil => simp [takeBytes?]
      | cons a as =>
        simp only [takeBytes?, List.cons_prefix_cons, byteLength_cons]
        split
        · next h =>
          simp only [Option.map_eq_some_iff, ih, List.cons.injEq]
          constructor
          · rintro ⟨bs, ⟨hp, hn⟩, rfl, rfl⟩
            exact ⟨⟨rfl, hp⟩, by omega⟩
          · rintro ⟨⟨rfl, hp⟩, hn⟩
            exact ⟨as, ⟨hp, by omega⟩, rfl, rfl⟩
        · next h =>
          constructor
          · simp
          · rintro ⟨⟨rfl, -⟩, hn⟩
            omega

/-- The table of tails holds, at each offset, what `dropBytes?` leaves there. -/
theorem tails_getElem? (cs : List Char) (n : Nat) : (tails cs)[n]?.join = dropBytes? n cs := by
  induction cs generalizing n with
  | nil => cases n <;> rfl
  | cons c cs ih =>
    cases n with
    | zero => rfl
    | succ n =>
      have hc := c.utf8Size_pos
      simp only [tails, dropBytes?, List.getElem?_cons_succ, List.getElem?_append,
        List.length_replicate]
      split
      · next hn =>
        have : ¬ c.utf8Size ≤ n + 1 := by omega
        simp [this, hn]
      · have h : c.utf8Size ≤ n + 1 := by omega
        have e : n - (c.utf8Size - 1) = n + 1 - c.utf8Size := by omega
        rw [if_pos h, e, ih]

end RankedGrammar.Text
