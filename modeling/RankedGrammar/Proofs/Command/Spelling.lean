import RankedGrammar.Command.Arguments
import Mathlib.Data.List.Basic

/-!
Two ways to spell an option with its value: one argument, with an equals sign between the two, or
two arguments. The value of one argument loses every copy of the option and the sign that it
begins with; the value of two arguments is taken as it stands.
-/
namespace RankedGrammar.Command

section Repeated

variable {start rest : List Char}

/-- Copies of `start` are dropped up to the first place where none stands. -/
theorem dropRepeated_copies (hrest : ¬start <+: rest) {k fuel : Nat} (hk : k ≤ fuel) :
    dropRepeated start fuel ((List.replicate k start).flatten ++ rest) = rest := by
  induction k generalizing fuel with
  | zero =>
    cases fuel with
    | zero => rfl
    | succ fuel => simp [dropRepeated, List.isPrefixOf_iff_prefix, hrest]
  | succ k ih =>
    obtain ⟨fuel, rfl⟩ : ∃ n, fuel = n + 1 := ⟨fuel - 1, by omega⟩
    simpa [dropRepeated, List.replicate_succ, List.isPrefixOf_iff_prefix] using ih (by omega)

/-- Every text is some copies of `start` and a rest that does not begin with it. -/
theorem exists_copies (hstart : start ≠ []) (text : List Char) :
    ∃ k rest, text = (List.replicate k start).flatten ++ rest ∧ ¬start <+: rest := by
  induction hn : text.length using Nat.strongRecOn generalizing text with
  | ind n ih =>
    by_cases hpre : start <+: text
    · obtain ⟨tail, rfl⟩ := hpre
      have hpos : 0 < start.length := List.length_pos_iff.2 hstart
      have hlt : tail.length < n := by
        rw [← hn, List.length_append]
        omega
      obtain ⟨k, rest, htail, hrest⟩ := ih _ hlt tail rfl
      exact ⟨k + 1, rest, by rw [htail, List.replicate_succ, List.flatten_cons,
        List.append_assoc], hrest⟩
    · exact ⟨0, text, rfl, hpre⟩

theorem length_le_copies (hstart : start ≠ []) (k : Nat) :
    k ≤ (List.replicate k start).flatten.length := by
  have hpos : 0 < start.length := List.length_pos_iff.2 hstart
  simpa using Nat.le_mul_of_pos_right k hpos

end Repeated

namespace Valued

/-- What a value after an equals sign comes after. -/
def start (o : Valued) : List Char :=
  (o.name ++ "=").toList

def joined (o : Valued) (value : String) : String :=
  o.name ++ "=" ++ value

@[simp] theorem toList_joined (o : Valued) (value : String) :
    (o.joined value).toList = o.start ++ value.toList := by
  simp [joined, start]

theorem start_ne_nil (o : Valued) : o.start ≠ [] := by
  simp [start]

/-- No option's sign begins the argument of another option. -/
theorem eq_of_start_isPrefix {o p : Valued} {value : String}
    (h : p.start <+: (o.joined value).toList) : p = o := by
  rw [toList_joined] at h
  cases o <;> cases p <;> simp_all [start, name]

theorem assigned?_joined {o : Valued} {value bare : String} {k : Nat}
    (hvalue : value.toList = (List.replicate k o.start).flatten ++ bare.toList)
    (hbare : ¬o.start <+: bare.toList) : o.assigned? (o.joined value).toList = some bare := by
  have hcopies : (o.joined value).toList =
      (List.replicate (k + 1) o.start).flatten ++ bare.toList := by
    rw [toList_joined, hvalue, List.replicate_succ, List.flatten_cons, List.append_assoc]
  have hfuel : k + 1 ≤ (o.joined value).toList.length := by
    rw [hcopies, List.length_append]
    exact Nat.le_add_right_of_le (length_le_copies o.start_ne_nil (k + 1))
  have hpre : o.start.isPrefixOf (o.joined value).toList := by simp
  have hdrop := dropRepeated_copies hbare hfuel
  rw [← hcopies] at hdrop
  change (if o.start.isPrefixOf _ then _ else _) = _
  rw [if_pos hpre]
  change some (String.ofList (dropRepeated o.start _ _)) = _
  rw [hdrop, String.ofList_toList]

theorem ofString_name (o : Valued) : Argument.ofString o.name = .valued o := by
  cases o <;> decide

theorem ofString_joined {o : Valued} {value bare : String} {k : Nat}
    (hvalue : value.toList = (List.replicate k o.start).flatten ++ bare.toList)
    (hbare : ¬o.start <+: bare.toList) :
    Argument.ofString (o.joined value) = .assigned o bare := by
  have hself := assigned?_joined hvalue hbare
  have hother : ∀ p : Valued, p ≠ o → p.assigned? (o.joined value).toList = none := by
    intro p hp
    change (if p.start.isPrefixOf _ then _ else _) = _
    rw [if_neg fun h => hp (eq_of_start_isPrefix (List.isPrefixOf_iff_prefix.1 h))]
  have hword : ∀ text : String, ¬o.start <+: text.toList → o.joined value ≠ text := by
    rintro _ h rfl
    exact h (by simp)
  have hfind : (Valued.all.findSome? fun p =>
      (p.assigned? (o.joined value).toList).map (Argument.assigned p)) =
        some (.assigned o bare) := by
    cases o <;> simp [Valued.all, hself, hother, -toList_joined]
  rw [Argument.ofString]
  rw [hfind]
  cases o <;> simp [hword, start, name]

end Valued

/-- The arguments before an option position: whole options that are read without an error, with the
settings that they turn `s` into. -/
inductive Settings.Takes : Settings → List String → Settings → Prop where
  | nil (s) : Takes s [] s
  | color {s arg on args t} (harg : Argument.ofString arg = .color on)
    (h : Takes { s with color := on } args t) : Takes s (arg :: args) t
  | trace {s arg args t} (harg : Argument.ofString arg = .trace)
    (h : Takes { s with trace := true } args t) : Takes s (arg :: args) t
  | raw {s arg args t} (harg : Argument.ofString arg = .raw)
    (h : Takes { s with raw := true } args t) : Takes s (arg :: args) t
  | valued {s arg o value u args t} (harg : Argument.ofString arg = .valued o)
    (hassign : s.assign o value = .ok u) (h : Takes u args t) : Takes s (arg :: value :: args) t
  | assigned {s arg o value u args t} (harg : Argument.ofString arg = .assigned o value)
    (hassign : s.assign o value = .ok u) (h : Takes u args t) : Takes s (arg :: args) t

namespace Request

variable {s t : Settings}

/-- At an option position the outcome depends on the settings so far and the arguments to come. -/
theorem read_append {pre : List String} (h : s.Takes pre t) (rest : List String) :
    read s (pre ++ rest) = read t rest := by
  induction h with
  | nil => rfl
  | color harg _ ih | trace harg _ ih | raw harg _ ih =>
    rw [List.cons_append, read, harg]
    exact ih
  | valued harg hassign _ ih | assigned harg hassign _ ih =>
    simp only [List.cons_append]
    rw [read, harg]
    simp only [hassign]
    exact ih

/-- Nothing else comes before an option position: where arguments leave the reading of all that may
follow to `t`, they are whole options that turn `s` into `t`. -/
theorem takes_of_read_append {pre : List String}
    (h : ∀ rest, read s (pre ++ rest) = read t rest) : s.Takes pre t := by
  induction hn : pre.length using Nat.strongRecOn generalizing s pre with
  | ind n ih =>
    have hend : read s pre = .ok (.parse t) := by simpa [read] using h []
    have hhelp : read s (pre ++ ["--help"]) = .ok .help := h ["--help"]
    cases pre with
    | nil =>
      obtain rfl : s = t := by simpa [read] using hend
      exact .nil s
    | cons arg args =>
      have hlt : args.length < n := by
        rw [← hn]
        exact Nat.lt_succ_self _
      -- What ends the reading ends it for all that may follow, so neither `t` nor the request for
      -- help could come of it.
      simp only [List.cons_append, read] at h hend hhelp
      cases harg : Argument.ofString arg with
      | help | version | unknown => simp [harg] at hend
      | doubleDash =>
        simp only [harg] at hhelp
        cases hset : s.setRest (args ++ ["--help"]) <;> simp [hset, Except.map] at hhelp
      | word =>
        simp only [harg] at hhelp
        cases hset : s.setInput (" ".intercalate (arg :: (args ++ ["--help"]))) <;>
          simp [hset, Except.map] at hhelp
      | color on => exact .color harg (ih _ hlt (by simpa [harg] using h) rfl)
      | trace => exact .trace harg (ih _ hlt (by simpa [harg] using h) rfl)
      | raw => exact .raw harg (ih _ hlt (by simpa [harg] using h) rfl)
      | valued o =>
        cases args with
        | nil => simp [harg] at hend
        | cons value args =>
          cases hassign : s.assign o value with
          | error e => simp [harg, hassign] at hend
          | ok u =>
            have hshort : args.length < n := Nat.lt_trans (Nat.lt_succ_self _) hlt
            exact .valued harg hassign (ih _ hshort (by simpa [harg, hassign] using h) rfl)
      | assigned o value =>
        cases hassign : s.assign o value with
        | error e => simp [harg, hassign] at hend
        | ok u => exact .assigned harg hassign (ih _ hlt (by simpa [harg, hassign] using h) rfl)

theorem read_apart (o : Valued) (value : String) (post : List String) :
    read s (o.name :: value :: post) = s.assign o value >>= (read · post) := by
  rw [read, o.ofString_name]
  cases h : s.assign o value <;> simp only [h] <;> rfl

theorem read_joined {o : Valued} {value bare : String} {k : Nat}
    (hvalue : value.toList = (List.replicate k o.start).flatten ++ bare.toList)
    (hbare : ¬o.start <+: bare.toList) (post : List String) :
    read s (o.joined value :: post) = s.assign o bare >>= (read · post) := by
  rw [read, Valued.ofString_joined hvalue hbare]
  cases h : s.assign o bare <;> simp only [h] <;> rfl

/-- A value that begins with its option and the sign is not assigned as one that does not, unless
there is an input already, which no value replaces. -/
theorem assign_ne {o : Valued} {value bare : String} (hvalue : o.start <+: value.toList)
    (hbare : ¬o.start <+: bare.toList) (hfree : ¬(o = .input ∧ s.input.isSome)) :
    s.assign o bare ≠ s.assign o value := by
  have hne : bare ≠ value := by
    rintro rfl
    exact hbare hvalue
  cases o with
  | rule => simp [Settings.assign, hne]
  | maxDepth =>
    obtain ⟨tail, htail⟩ := hvalue
    have hdepth : depth? value = none := by
      rw [depth?, ← htail]
      rfl
    simp only [Settings.assign, hdepth]
    split <;> simp [hne]
  | input =>
    have hnone : s.input.isSome = false := by simpa using hfree
    simp [Settings.assign, Settings.setInput, hnone, hne]

/-- An option whose value stands after an equals sign is read as the option followed by that value
as a further argument, less the copies of the option and the sign that the value begins with. So
the two spellings of a value agree, whatever comes after them, exactly when the value begins with
no such copy or cannot be taken anyway, as a second input. -/
theorem ofArguments_joined (o : Valued) (value : String) {color : Bool} {pre : List String}
    (h : (Settings.initial color).Takes pre s) :
    (∃ (k : Nat) (bare : String),
      value.toList = (List.replicate k o.start).flatten ++ bare.toList ∧
      ¬o.start <+: bare.toList ∧
      ∀ post, ofArguments color (pre ++ o.joined value :: post) =
        ofArguments color (pre ++ o.name :: bare :: post)) ∧
    ((∀ post, ofArguments color (pre ++ o.joined value :: post) =
        ofArguments color (pre ++ o.name :: value :: post)) ↔
      ¬o.start <+: value.toList ∨ o = .input ∧ s.input.isSome) := by
  obtain ⟨k, rest, hcopies, hrest⟩ := exists_copies o.start_ne_nil value.toList
  obtain ⟨bare, rfl⟩ : ∃ bare : String, rest = bare.toList :=
    ⟨String.ofList rest, String.toList_ofList.symm⟩
  have hjoined : ∀ post, ofArguments color (pre ++ o.joined value :: post) =
      s.assign o bare >>= (read · post) := fun post => by
    rw [ofArguments, read_append h, read_joined hcopies hrest]
  have hapart : ∀ v post, ofArguments color (pre ++ o.name :: v :: post) =
      s.assign o v >>= (read · post) := fun v post => by
    rw [ofArguments, read_append h, read_apart]
  refine ⟨⟨k, bare, hcopies, hrest, fun post => by rw [hjoined, hapart]⟩, ?_⟩
  simp only [hjoined, hapart]
  constructor
  · intro hall
    by_contra hneither
    obtain ⟨hpre, hfree⟩ := not_or.1 hneither
    refine assign_ne (not_not.1 hpre) hrest hfree ?_
    have hend := hall []
    simp only [read] at hend
    cases hb : s.assign o bare <;> cases hv : s.assign o value <;>
      simp_all [bind, Except.bind]
  · rintro (hpre | ⟨rfl, hsome⟩) post
    · cases k with
      | zero =>
        have hsame : value = bare := String.toList_inj.1 (by simpa using hcopies)
        rw [hsame]
      | succ k =>
        refine absurd ?_ hpre
        rw [hcopies, List.replicate_succ, List.flatten_cons, List.append_assoc]
        exact List.prefix_append _ _
    · simp [Settings.assign, Settings.setInput, hsome]

theorem ofArguments_joined_prefixed :
    (Settings.initial false).Takes ["--trace"] { Settings.initial false with trace := true } ∧
    (∃ (k : Nat) (bare : String),
      "--rule=SCRIPT".toList = (List.replicate k Valued.rule.start).flatten ++ bare.toList ∧
      ¬Valued.rule.start <+: bare.toList ∧
      ∀ post, ofArguments false (["--trace"] ++ Valued.rule.joined "--rule=SCRIPT" :: post) =
        ofArguments false (["--trace"] ++ Valued.rule.name :: bare :: post)) ∧
    ¬∀ post, ofArguments false (["--trace"] ++ Valued.rule.joined "--rule=SCRIPT" :: post) =
        ofArguments false (["--trace"] ++ Valued.rule.name :: "--rule=SCRIPT" :: post) := by
  have htrace : (Settings.initial false).Takes ["--trace"]
      { Settings.initial false with trace := true } := .trace (by decide) (.nil _)
  obtain ⟨hbare, hagree⟩ := ofArguments_joined .rule "--rule=SCRIPT" htrace
  refine ⟨htrace, hbare, fun hall => ?_⟩
  rcases hagree.1 hall with hno | ⟨hinput, _⟩
  · exact hno (by decide)
  · cases hinput

/-- The rule that one spelling asks for is a rule of the demo language, and the rule that the other
asks for is not. -/
theorem ofArguments_joined_ne_apart :
    ofArguments true [Valued.rule.joined "--rule=SCRIPT", "--input", "$a = 1;"] =
      .ok (.parse { Settings.initial true with rule := "SCRIPT", input := some "$a = 1;" }) ∧
    ofArguments true [Valued.rule.name, "--rule=SCRIPT", "--input", "$a = 1;"] =
      .ok (.parse { Settings.initial true with rule := "--rule=SCRIPT", input := some "$a = 1;" }) ∧
    ofArguments true [Valued.rule.joined "--rule=SCRIPT", "--input", "$a = 1;"] ≠
      ofArguments true [Valued.rule.name, "--rule=SCRIPT", "--input", "$a = 1;"] := by
  refine ⟨?_, ?_, ?_⟩ <;> decide +kernel

end Request

end RankedGrammar.Command
