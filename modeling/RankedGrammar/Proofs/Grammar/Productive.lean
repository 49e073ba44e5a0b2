import RankedGrammar.Proofs.Grammar.Statements

/-!
Productive grammars, in which every part of a rule derives some text, so that a text that has been
begun can be finished. The grammar of statements is one of them.
-/
namespace RankedGrammar
open Text (CharClass Pattern)

namespace Phrase

variable {σ : Type} {rule : σ → Phrase σ} {p : Phrase σ} {ps : List (Phrase σ)}

theorem exists_derives_seq (h : ∀ p ∈ ps, ∃ cs, Derives rule p cs) :
    ∃ cs, Derives rule (.seq ps) cs := by
  induction ps with
  | nil => exact ⟨[], .nil⟩
  | cons p ps ih =>
    obtain ⟨⟨cs, hcs⟩, hps⟩ := List.forall_mem_cons.1 h
    obtain ⟨ds, hds⟩ := ih hps
    exact ⟨cs ++ ds, .cons hcs hds⟩

/-- No class in the phrase is empty, and no choice is without a case. -/
inductive Fruitful : Phrase σ → Prop where
  | symbol (s : σ) : Fruitful (.symbol s)
  | text (t : String) : Fruitful (.text t)
  | one {k : CharClass} {c : Char} (h : k.contains c = true) : Fruitful (.one k)
  | seq {ps : List (Phrase σ)} (h : ∀ p ∈ ps, Fruitful p) : Fruitful (.seq ps)
  | oneOf {ps : List (Phrase σ)} (hne : ps ≠ []) (h : ∀ p ∈ ps, Fruitful p) : Fruitful (.oneOf ps)
  | many {p : Phrase σ} (h : Fruitful p) : Fruitful (.many p)

namespace Fruitful

@[simp] theorem symbol_iff (s : σ) : Fruitful (.symbol s) ↔ True := iff_true_intro (.symbol s)

@[simp] theorem text_iff (t : String) : (Phrase.text t : Phrase σ).Fruitful ↔ True :=
  iff_true_intro (.text t)

@[simp] theorem seq_iff : Fruitful (.seq ps) ↔ ∀ p ∈ ps, p.Fruitful := by
  constructor
  · rintro ⟨⟩
    assumption
  · exact .seq

@[simp] theorem oneOf_iff : Fruitful (.oneOf ps) ↔ ps ≠ [] ∧ ∀ p ∈ ps, p.Fruitful := by
  constructor
  · rintro ⟨⟩
    exact ⟨‹_›, ‹_›⟩
  · rintro ⟨hne, h⟩
    exact .oneOf hne h

@[simp] theorem many_iff : Fruitful (.many p) ↔ p.Fruitful := by
  constructor
  · rintro ⟨⟩
    assumption
  · exact .many

/-- A phrase derives some text if its symbols do. -/
theorem exists_derives (hsymbol : ∀ s, ∃ cs, Derives rule (.symbol s) cs) (h : p.Fruitful) :
    ∃ cs, Derives rule p cs := by
  induction h with
  | symbol s => exact hsymbol s
  | text t => exact ⟨t.toList, .text t⟩
  | @one k c h => exact ⟨[c], .one h⟩
  | seq _ ih => exact exists_derives_seq ih
  | oneOf hne _ ih =>
    obtain ⟨p, hp⟩ := List.exists_mem_of_ne_nil _ hne
    obtain ⟨cs, hcs⟩ := ih p hp
    exact ⟨cs, .oneOf hp hcs⟩
  | many => exact ⟨[], .none _⟩

end Fruitful

end Phrase

namespace Text.Pattern

def classes : Pattern → List CharClass
  | nothing => []
  | one k => [k]
  | seq p q => p.classes ++ q.classes
  | alt p q => p.classes ++ q.classes
  | star p => p.classes
  | atEnd => []
  | wordEdge => []

theorem fruitful_phrase {σ : Type} {p : Pattern}
    (h : ∀ k ∈ p.classes, ∃ c, k.contains c = true) : (p.phrase : Phrase σ).Fruitful := by
  induction p with
  | nothing => exact .seq (by simp)
  | one k =>
    obtain ⟨c, hc⟩ := h k (List.mem_singleton.2 rfl)
    exact .one hc
  | seq p q hp hq =>
    obtain ⟨hleft, hright⟩ := List.forall_mem_append.1 h
    exact .seq (by simpa using ⟨hp hleft, hq hright⟩)
  | alt p q hp hq =>
    obtain ⟨hleft, hright⟩ := List.forall_mem_append.1 h
    exact .oneOf (by simp) (by simpa using ⟨hp hleft, hq hright⟩)
  | star p hp => exact .many (hp h)
  | atEnd => exact .seq (by simp)
  | wordEdge => exact .seq (by simp)

end Text.Pattern

/-- Every symbol derives some text, and so does every part of its phrase. -/
structure Grammar.Productive {σ : Type} (g : Grammar σ) : Prop where
  fruitful : ∀ s, (g.rule s).Fruitful
  derives : ∀ s, ∃ cs, g.Derives (.symbol s) cs

theorem Tokens.fruitful_phrase {σ : Type} :
    ∀ p ∈ [ident, number, stringLit, colorHash], (p.phrase : Phrase σ).Fruitful := by
  intro p hp
  apply Text.Pattern.fruitful_phrase
  have hclasses : ∀ p ∈ [ident, number, stringLit, colorHash], ∀ k ∈ p.classes,
      ['a', '0', '.', '"', '\\', '#'].any k.contains = true := by decide +kernel
  intro k hk
  obtain ⟨c, -, hc⟩ := List.any_eq_true.1 (hclasses p hp k hk)
  exact ⟨c, hc⟩

namespace Grammar

/-- The symbols in an order in which each has a text made of those before it. -/
theorem exists_derives_statements (s : Symbol) :
    ∃ cs, Grammar.statements.Derives (.symbol s) cs := by
  have htoken : ∀ {s : Symbol} (p : Pattern) (cs : List Char),
      Grammar.statements.rule s = p.phrase → p.match? cs = some cs →
        Grammar.statements.Derives (.symbol s) cs := by
    intro s p cs hrule h
    refine .symbol ?_
    rw [hrule]
    exact Pattern.derives_of_match? h
  have hblanks : Grammar.statements.Derives (.symbol .whitespace) [] := .symbol (.none _)
  have hend : Grammar.statements.Derives (.symbol .statementEnd) [';'] := .symbol (.text ";")
  have heof : Grammar.statements.Derives (.symbol .eof) [] := .symbol .nil
  have hoperator : Grammar.statements.Derives (.symbol .operator) ['+'] :=
    .symbol (.oneOf List.mem_cons_self (.text "+"))
  have hident : Grammar.statements.Derives (.symbol .ident) ['a'] :=
    htoken Tokens.ident ['a'] rfl (by decide +kernel)
  have hnumber : Grammar.statements.Derives (.symbol .number) ['0'] :=
    htoken Tokens.number ['0'] rfl (by decide +kernel)
  have hstring : Grammar.statements.Derives (.symbol .stringLit) ['"', '"'] :=
    htoken Tokens.stringLit ['"', '"'] rfl (by decide +kernel)
  have hcolor : Grammar.statements.Derives (.symbol .colorHash) ['#', '0', '0', '0'] :=
    htoken Tokens.colorHash ['#', '0', '0', '0'] rfl (by decide +kernel)
  obtain ⟨_, hvar⟩ : ∃ cs, Grammar.statements.Derives (.symbol .var) cs :=
    ⟨_, .symbol (.cons (.text "$") (.cons hident .nil))⟩
  obtain ⟨_, hpercentage⟩ : ∃ cs, Grammar.statements.Derives (.symbol .percentage) cs :=
    ⟨_, .symbol (.cons hnumber (.cons (.text "%") .nil))⟩
  obtain ⟨_, hterm⟩ : ∃ cs, Grammar.statements.Derives (.symbol .term) cs :=
    ⟨_, .symbol (.oneOf List.mem_cons_self hpercentage)⟩
  obtain ⟨_, hexpression⟩ : ∃ cs, Grammar.statements.Derives (.symbol .expression) cs :=
    ⟨_, .symbol (.cons hterm (.cons (.none _) .nil))⟩
  obtain ⟨_, hgroup⟩ : ∃ cs, Grammar.statements.Derives (.symbol .group) cs :=
    ⟨_, .symbol (.cons (.text "(") (.cons hblanks (.cons hexpression
      (.cons hblanks (.cons (.text ")") .nil)))))⟩
  obtain ⟨_, harguments⟩ : ∃ cs, Grammar.statements.Derives (.symbol .arguments) cs :=
    ⟨_, .symbol (.cons hexpression (.cons (.none _) .nil))⟩
  obtain ⟨_, hcall⟩ : ∃ cs, Grammar.statements.Derives (.symbol .call) cs :=
    ⟨_, .symbol (.cons hident (.cons (.text "(") (.cons hblanks
      (.cons (.oneOf List.mem_cons_self harguments) (.cons hblanks (.cons (.text ")") .nil))))))⟩
  obtain ⟨_, hassignment⟩ : ∃ cs, Grammar.statements.Derives (.symbol .assignment) cs :=
    ⟨_, .symbol (.cons hvar (.cons hblanks (.cons (.text "=") (.cons hblanks
      (.cons hexpression .nil)))))⟩
  obtain ⟨_, hstatement⟩ : ∃ cs, Grammar.statements.Derives (.symbol .statement) cs :=
    ⟨_, .symbol (.cons hblanks (.cons (.oneOf List.mem_cons_self hassignment) (.cons hblanks
      (.cons hend .nil))))⟩
  obtain ⟨_, hscript⟩ : ∃ cs, Grammar.statements.Derives (.symbol .script) cs :=
    ⟨_, .symbol (.cons (.none _) (.cons hblanks (.cons heof .nil)))⟩
  cases s with
  | script => exact ⟨_, hscript⟩
  | statement => exact ⟨_, hstatement⟩
  | assignment => exact ⟨_, hassignment⟩
  | var => exact ⟨_, hvar⟩
  | expression => exact ⟨_, hexpression⟩
  | term => exact ⟨_, hterm⟩
  | percentage => exact ⟨_, hpercentage⟩
  | group => exact ⟨_, hgroup⟩
  | call => exact ⟨_, hcall⟩
  | arguments => exact ⟨_, harguments⟩
  | operator => exact ⟨_, hoperator⟩
  | statementEnd => exact ⟨_, hend⟩
  | whitespace => exact ⟨_, hblanks⟩
  | ident => exact ⟨_, hident⟩
  | number => exact ⟨_, hnumber⟩
  | stringLit => exact ⟨_, hstring⟩
  | colorHash => exact ⟨_, hcolor⟩
  | eof => exact ⟨_, heof⟩

theorem productive_statements : Grammar.statements.Productive where
  derives := exists_derives_statements
  fruitful s := by
    cases s with
    | whitespace =>
      have hblank : Symbol.blank.contains ' ' = true := by decide
      exact .many (.one hblank)
    | ident => exact Tokens.fruitful_phrase Tokens.ident (by simp)
    | number => exact Tokens.fruitful_phrase Tokens.number (by simp)
    | stringLit => exact Tokens.fruitful_phrase Tokens.stringLit (by simp)
    | colorHash => exact Tokens.fruitful_phrase Tokens.colorHash (by simp)
    | _ => simp [Grammar.statements, Phrase.maybe]

end Grammar

end RankedGrammar
