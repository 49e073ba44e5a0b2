import RankedGrammar.Proofs.Text.Reading
import RankedGrammar.Proofs.Text.Slice

/-!
Terminals between two characters. What a terminal does is told from the text after the cursor, and
what it takes it records.
-/
namespace RankedGrammar
open Text (byteLength)

/-- All bytes of the class are characters by themselves. -/
def ByteClass.Ascii (k : ByteClass) : Prop := ∀ b, k.contains b = true → b < 0x80

/-- The character is a single byte of the class. -/
def ByteClass.holds (k : ByteClass) (c : Char) : Bool :=
  match String.utf8EncodeChar c with
  | [b] => k.contains b
  | _ => false

/-- Every run of bytes of the class at the start of a text ends between two characters. -/
def ByteClass.Whole (k : ByteClass) : Prop :=
  ∀ cs, ∃ ds, ds <+: cs ∧ Terminal.countBytes k cs = byteLength ds

namespace ByteClass

variable {k : ByteClass} {c : Char}

theorem holds_iff : k.holds c = true ↔ ∃ b, String.utf8EncodeChar c = [b] ∧ k.contains b = true := by
  unfold holds
  split
  · next b henc => simp [henc]
  · next hmulti =>
    constructor
    · intro h
      cases h
    · rintro ⟨b, henc, -⟩
      exact absurd henc (hmulti b)

theorem utf8Size_of_holds (h : k.holds c = true) : c.utf8Size = 1 := by
  obtain ⟨b, henc, -⟩ := holds_iff.1 h
  rw [← String.length_utf8EncodeChar, henc]
  rfl

/-- Of the bytes of a character the first alone decides. -/
theorem Ascii.head?_any (hk : k.Ascii) (c : Char) :
    (String.utf8EncodeChar c).head?.any k.contains = k.holds c := by
  cases henc : String.utf8EncodeChar c with
  | nil => exact absurd henc String.utf8EncodeChar_ne_nil
  | cons b bs =>
    have hmem : b ∈ String.utf8EncodeChar c := by
      rw [henc]
      exact List.mem_cons_self
    rw [Bool.eq_iff_iff, holds_iff]
    constructor
    · intro hb
      exact ⟨b, Text.utf8EncodeChar_of_lt hmem (hk b hb), hb⟩
    · rintro ⟨b', hsingle, hb⟩
      rw [hsingle] at henc
      cases henc
      exact hb

theorem Ascii.countBytes_eq (hk : k.Ascii) (cs : List Char) :
    Terminal.countBytes k cs = byteLength (cs.takeWhile k.holds) := by
  induction cs with
  | nil => rfl
  | cons c cs ih =>
    have hpos := c.utf8Size_pos
    rw [Terminal.countBytes]
    cases hc : k.holds c with
    | true =>
      obtain ⟨b, henc, hb⟩ := holds_iff.1 hc
      have hsize := utf8Size_of_holds hc
      simp [henc, hb, hc, hsize, ih]
    | false =>
      have hhead := hk.head?_any c
      rw [hc] at hhead
      have hnone : (String.utf8EncodeChar c).takeWhile k.contains = [] := by
        cases henc : String.utf8EncodeChar c with
        | nil => rfl
        | cons b bs =>
          rw [henc] at hhead
          have hb : k.contains b = false := hhead
          simp [hb]
      have hne : ¬ 0 = c.utf8Size := by omega
      simp [hnone, hc, hne]

theorem Ascii.whole (hk : k.Ascii) : k.Whole := by
  intro cs
  exact ⟨cs.takeWhile k.holds, List.takeWhile_prefix _, hk.countBytes_eq cs⟩

theorem ascii_of_ranges (h : (k.ranges.all fun r => r.2 < 0x80) = true) : k.Ascii := by
  intro b hb
  obtain ⟨r, hr, hrange⟩ := List.any_eq_true.1 hb
  have hle : b ≤ r.2 := by
    have hboth := Bool.and_eq_true_iff.1 hrange
    exact of_decide_eq_true hboth.2
  exact UInt8.lt_of_le_of_lt hle (of_decide_eq_true (List.all_eq_true.1 h r hr))

theorem lt_of_holds (h : k.holds c = true) : c.toNat < 128 := by
  have hval := Char.utf8Size_eq_one_iff.1 (utf8Size_of_holds h)
  exact Nat.lt_succ_of_le (UInt32.le_iff_toNat_le.1 hval)

/-- What holds of the ASCII characters of a class is checked on all ASCII characters. -/
theorem forall_holds {p : Char → Bool}
    (h : ((List.range 128).all fun n => !k.holds (Char.ofNat n) || p (Char.ofNat n)) = true)
    (hc : k.holds c = true) : p c = true := by
  have hchar := List.all_eq_true.1 h c.toNat (List.mem_range.2 (lt_of_holds hc))
  rw [Char.ofNat_toNat, hc] at hchar
  exact hchar

end ByteClass

/-- The node has recorded what stands between its start and its cursor. -/
def Node.Taken (src : Source) (n : Node) : Prop :=
  src.Spells n.start (n.literal.getD "").toList n.point

namespace Terminal

variable {src : Source} {n : Node} {k : ByteClass} {cs ds rest : List Char}

theorem takeRead_eq {reader : List Char → Option (List Char)} (h : src.tail? n.point = some cs) :
    takeRead src reader n =
      match reader cs with
      | some ds => (true, take src (byteLength ds) n)
      | none => (false, n) := by
  unfold takeRead Source.remaining
  rw [h]
  rfl

theorem bytes_eq (hk : k.Ascii) (least : Nat) (h : src.tail? n.point = some cs) :
    bytes src k least n =
      (decide (least ≤ byteLength (cs.takeWhile k.holds)),
        take src (byteLength (cs.takeWhile k.holds)) n) := by
  unfold bytes Source.remaining
  rw [h, ← hk.countBytes_eq]
  rfl

theorem byte_eq (hk : k.Ascii) (h : src.tail? n.point = some cs) :
    byte src k n = if cs.head?.any k.holds then (true, take src 1 n) else (false, n) := by
  unfold byte
  rw [Source.byteAt?_of_tail? h]
  cases cs with
  | nil => rfl
  | cons c cs =>
    have hhead : (Text.utf8Bytes (c :: cs)).head? = (String.utf8EncodeChar c).head? := by
      rw [Text.utf8Bytes, List.flatMap_cons]
      simp [List.head?_append, List.head?_eq_some_head String.utf8EncodeChar_ne_nil]
    rw [hhead, hk.head?_any]
    rfl

theorem byte_of_holds (hk : k.Ascii) {c : Char} (hc : k.holds c = true)
    (h : src.tail? n.point = some (c :: cs)) :
    byte src k n = (true, take src (byteLength [c]) n) := by
  rw [byte_eq hk h, Text.byteLength_cons, ByteClass.utf8Size_of_holds hc]
  exact if_pos hc

theorem byte_of_not_holds (hk : k.Ascii) (hcs : cs.head?.any k.holds = false)
    (h : src.tail? n.point = some cs) : byte src k n = (false, n) := by
  rw [byte_eq hk h, hcs]
  rfl

theorem attached_eq {t : String} (ht : t ≠ "") (hrole : n.role.attached? = some t)
    (h : src.tail? n.point = some cs) :
    attached src n =
      if t.toList.isPrefixOf cs then (true, take src (byteLength t.toList) n) else (false, n) := by
  have hempty : t.isEmpty = false := by
    rw [Bool.eq_false_iff, ne_eq, String.isEmpty_iff]
    exact ht
  unfold attached text
  rw [hrole]
  dsimp only
  rw [hempty, if_neg Bool.false_ne_true, takeRead_eq h]
  by_cases hpre : t.toList.isPrefixOf cs = true
  · simp [hpre]
  · simp [hpre]

/-- What the terminal takes it records. -/
def Takes (src : Source) (f : Terminal) : Prop := ∀ n, n.Taken src → (f n).2.Taken src

theorem taken_take (h : n.Taken src) (hcs : src.tail? n.point = some (cs ++ rest)) :
    (take src (byteLength cs) n).Taken src := by
  have hspells : src.Spells n.point cs (n.point + byteLength cs) := ⟨rest, hcs, rfl⟩
  have happ := h.append hspells
  unfold Node.Taken take Node.record
  dsimp only
  rw [hspells.slice, Option.getD_some, String.toList_append, String.toList_ofList]
  exact happ

theorem takes_byte (hk : k.Ascii) : Takes src (byte src k) := by
  intro n h
  obtain ⟨cs, hcs⟩ := Option.isSome_iff_exists.1 h.tail?_stop
  cases hhead : cs.head?.any k.holds with
  | false =>
    rw [byte_of_not_holds hk hhead hcs]
    exact h
  | true =>
    obtain ⟨c, hc, hholds⟩ := (Option.any_eq_true _ _).1 hhead
    obtain ⟨cs, rfl⟩ := List.head?_eq_some_iff.1 hc
    rw [byte_of_holds hk hholds hcs]
    exact taken_take h hcs

theorem takes_takeRead {reader : List Char → Option (List Char)}
    (hreader : ∀ cs ds, reader cs = some ds → ds <+: cs) : Takes src (takeRead src reader) := by
  intro n h
  obtain ⟨cs, hcs⟩ := Option.isSome_iff_exists.1 h.tail?_stop
  rw [takeRead_eq hcs]
  cases hread : reader cs with
  | none => exact h
  | some ds =>
    obtain ⟨rest, rfl⟩ := hreader cs ds hread
    exact taken_take h hcs

theorem isPrefix_of_reader {t : String}
    (h : (if t.toList.isPrefixOf cs then some t.toList else none) = some ds) : ds <+: cs := by
  split at h
  · next hpre =>
    cases h
    exact List.isPrefixOf_iff_prefix.1 hpre
  · cases h

theorem takes_text (t : String) : Takes src (text src t) :=
  takes_takeRead fun _ _ h => isPrefix_of_reader h

theorem takes_attached : Takes src (attached src) := by
  intro n h
  unfold attached
  split
  · split
    · exact h
    · exact takes_text _ n h
  · exact h

theorem takes_pattern (p : Text.Pattern) : Takes src (pattern src p) :=
  takes_takeRead fun _ _ h => Text.Pattern.isPrefix_of_match? h

theorem takes_bytes (hk : k.Whole) (least : Nat) : Takes src (bytes src k least) := by
  intro n h
  obtain ⟨cs, hcs⟩ := Option.isSome_iff_exists.1 h.tail?_stop
  have hremaining : src.remaining n.point = cs := by
    rw [Source.remaining, hcs]
    rfl
  obtain ⟨ds, ⟨rest, rfl⟩, hcount⟩ := hk cs
  unfold bytes
  dsimp only
  rw [hremaining, hcount]
  exact taken_take h hcs

end Terminal

end RankedGrammar
