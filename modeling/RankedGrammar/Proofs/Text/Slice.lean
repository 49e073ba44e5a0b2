import RankedGrammar.Match.Terminal

/-!
Texts inside a source. What stands between two offsets is told from the text after the first of them;
a byte below 128 is a character by itself, so a run of such bytes ends between two characters.
-/
namespace RankedGrammar

namespace Text

/-- A cut after a text leaves what a cut of the rest leaves. -/
theorem dropBytes?_append (cs ds : List Char) (n : Nat) :
    dropBytes? (byteLength cs + n) (cs ++ ds) = dropBytes? n ds := by
  induction cs with
  | nil => rw [byteLength_nil, Nat.zero_add, List.nil_append]
  | cons c cs ih =>
    have hpos := c.utf8Size_pos
    obtain ⟨m, hm⟩ : ∃ m, c.utf8Size + byteLength cs + n = m + 1 :=
      ⟨c.utf8Size + byteLength cs + n - 1, by omega⟩
    have hle : c.utf8Size ≤ m + 1 := by omega
    have hrest : m + 1 - c.utf8Size = byteLength cs + n := by omega
    rw [List.cons_append, byteLength_cons, hm, dropBytes?, if_pos hle, hrest, ih]

theorem dropBytes?_zero (cs : List Char) : dropBytes? 0 cs = some cs := by
  cases cs <;> rfl

theorem dropBytes?_eq_some {n : Nat} {cs ds : List Char} (h : dropBytes? n cs = some ds) :
    ∃ as, cs = as ++ ds ∧ byteLength as = n := by
  induction cs generalizing n with
  | nil =>
    cases n with
    | zero =>
      cases h
      exact ⟨[], rfl, rfl⟩
    | succ n => cases h
  | cons c cs ih =>
    cases n with
    | zero =>
      cases h
      exact ⟨[], rfl, rfl⟩
    | succ n =>
      rw [dropBytes?] at h
      split at h
      · next hle =>
        obtain ⟨as, hcs, has⟩ := ih h
        refine ⟨c :: as, by rw [hcs, List.cons_append], ?_⟩
        rw [byteLength_cons, has]
        omega
      · cases h

private theorem le_or_of_le {x y z : UInt8} (h : z ≤ y) : z ≤ x ||| y := by
  rw [UInt8.le_iff_toNat_le, UInt8.toNat_or]
  rw [UInt8.le_iff_toNat_le] at h
  exact Nat.le_trans h Nat.right_le_or

/-- A byte below 128 is the only one of its character. -/
theorem utf8EncodeChar_of_lt {c : Char} {b : UInt8} (hb : b ∈ String.utf8EncodeChar c)
    (hlt : b < 0x80) : String.utf8EncodeChar c = [b] := by
  have hge : ∀ {x y : UInt8}, 0x80 ≤ y → b = x ||| y → False := by
    intro x y hy heq
    have hle := le_or_of_le (x := x) hy
    rw [← heq] at hle
    rw [UInt8.lt_iff_toNat_lt] at hlt
    rw [UInt8.le_iff_toNat_le] at hle
    omega
  rcases c.utf8Size_eq with hsize | hsize | hsize | hsize
  · rw [String.utf8EncodeChar_eq_singleton hsize] at hb ⊢
    rw [List.mem_singleton.1 hb]
  · rw [String.utf8EncodeChar_eq_cons_cons hsize] at hb
    simp only [List.mem_cons, List.not_mem_nil, or_false] at hb
    rcases hb with hb | hb <;> exact absurd hb fun heq => hge (by decide) heq
  · rw [String.utf8EncodeChar_eq_cons_cons_cons hsize] at hb
    simp only [List.mem_cons, List.not_mem_nil, or_false] at hb
    rcases hb with hb | hb | hb <;> exact absurd hb fun heq => hge (by decide) heq
  · rw [String.utf8EncodeChar_eq_cons_cons_cons_cons hsize] at hb
    simp only [List.mem_cons, List.not_mem_nil, or_false] at hb
    rcases hb with hb | hb | hb | hb <;> exact absurd hb fun heq => hge (by decide) heq

end Text

namespace Source
open Text (byteLength)

variable {src : Source} {start mid stop : Nat} {cs ds : List Char}

/-- The text `cs` stands between the two offsets. -/
def Spells (src : Source) (start : Nat) (cs : List Char) (stop : Nat) : Prop :=
  ∃ rest, src.tail? start = some (cs ++ rest) ∧ stop = start + byteLength cs

theorem tail?_add (h : src.tail? start = some (cs ++ ds)) :
    src.tail? (start + byteLength cs) = some ds := by
  rw [tail?_eq] at h ⊢
  obtain ⟨as, hchars, rfl⟩ := Text.dropBytes?_eq_some h
  have hsplit : src.chars = (as ++ cs) ++ ds := by rw [hchars, List.append_assoc]
  have hsum : byteLength as + byteLength cs = byteLength (as ++ cs) + 0 := by simp
  rw [hsplit, hsum, Text.dropBytes?_append, Text.dropBytes?_zero]

/-- What stands before and after an offset between two characters. -/
theorem split_of_tail? (h : src.tail? start = some cs) :
    ∃ as, src.chars = as ++ cs ∧ byteLength as = start :=
  Text.dropBytes?_eq_some ((src.tail?_eq start).symm.trans h)

/-- The byte at an offset between two characters is the first of the text after it. -/
theorem byteAt?_of_tail? (h : src.tail? start = some cs) :
    src.byteAt? start = (Text.utf8Bytes cs).head? := by
  obtain ⟨as, hchars, rfl⟩ := split_of_tail? h
  have hbytes : Text.utf8Bytes src.chars = Text.utf8Bytes as ++ Text.utf8Bytes cs := by
    rw [hchars, Text.utf8Bytes, List.flatMap_append]
    rfl
  rw [byteAt?, src.bytes_eq, List.getElem?_toArray, hbytes,
    List.getElem?_append_right (Nat.le_of_eq (Text.length_utf8Bytes as)), Text.length_utf8Bytes,
    Nat.sub_self,
    List.head?_eq_getElem?]

theorem size_of_tail? (h : src.tail? start = some cs) : src.size = start + byteLength cs := by
  obtain ⟨as, hchars, rfl⟩ := split_of_tail? h
  rw [size_eq, hchars, Text.byteLength_append]

theorem tail?_zero (src : Source) : (src.tail? 0).isSome := by
  rw [tail?_eq, Text.dropBytes?_zero]
  rfl

namespace Spells

theorem nil (h : (src.tail? start).isSome) : src.Spells start [] start := by
  obtain ⟨rest, hrest⟩ := Option.isSome_iff_exists.1 h
  exact ⟨rest, hrest, rfl⟩

theorem tail?_stop (h : src.Spells start cs stop) : (src.tail? stop).isSome := by
  obtain ⟨rest, hrest, rfl⟩ := h
  rw [tail?_add hrest]
  rfl

theorem le (h : src.Spells start cs stop) : start ≤ stop := by
  obtain ⟨-, -, rfl⟩ := h
  exact Nat.le_add_right _ _

theorem le_size (h : src.Spells start cs stop) : stop ≤ src.size := by
  obtain ⟨after, hafter⟩ := Option.isSome_iff_exists.1 h.tail?_stop
  have hsize := size_of_tail? hafter
  omega

theorem append (h : src.Spells start cs mid) (h' : src.Spells mid ds stop) :
    src.Spells start (cs ++ ds) stop := by
  obtain ⟨rest, hrest, rfl⟩ := h
  obtain ⟨rest', hrest', rfl⟩ := h'
  rw [tail?_add hrest] at hrest'
  cases hrest'
  refine ⟨rest', ?_, ?_⟩
  · rw [hrest, List.append_assoc]
  · rw [Text.byteLength_append, Nat.add_assoc]

/-- A text from the start to the end is the whole. -/
theorem eq_chars (h : src.Spells 0 cs stop) (hstop : src.size ≤ stop) : cs = src.chars := by
  obtain ⟨rest, hrest, rfl⟩ := h
  have hchars : src.chars = cs ++ rest := by
    rw [tail?_eq, Text.dropBytes?_zero] at hrest
    exact Option.some.inj hrest
  cases rest with
  | nil => rw [hchars, List.append_nil]
  | cons c rest =>
    have hpos := c.utf8Size_pos
    rw [size_eq, hchars, Text.byteLength_append, Text.byteLength_cons] at hstop
    omega

theorem slice? (h : src.Spells start cs stop) :
    src.slice? start stop = some (String.ofList cs) := by
  obtain ⟨rest, hrest, rfl⟩ := h
  have htake : Text.takeBytes? (byteLength cs) (cs ++ rest) = some cs :=
    Text.takeBytes?_eq_some_iff.2 ⟨List.prefix_append cs rest, rfl⟩
  have hsub : start + byteLength cs - start = byteLength cs := by omega
  simp only [Source.slice?, hrest, Option.bind_eq_bind, Option.bind_some, Nat.le_add_right, if_true,
    hsub, htake, Option.map_some]

theorem slice (h : src.Spells start cs stop) : src.slice start stop = String.ofList cs := by
  rw [Source.slice, h.slice?]
  rfl

end Spells

end Source

end RankedGrammar
