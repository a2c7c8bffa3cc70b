import Variability.DotConfig
import Variability.Proofs.Text.Pieces

/-
  How lines about options are written.

  A line is about an option if it gives it some value, or if it
  says that it is not set; there is no other way. So the lines
  that are written for options are read back, and a carriage
  return at the end of a line about an option means nothing.

  Main declarations:
    * `DotConfig.IsName`
    * `DotConfig.IsWritten`
    * `DotConfig.readOption?_eq_some_iff`
    * `DotConfig.readOption?_optionLine`
    * `DotConfig.readOption?_dropReturn`
-/

namespace Variability

namespace DotConfig

variable {name : String}
variable {line rest : List Char}
variable {set : Bool}

------------------------------------------------------------
-- Names
------------------------------------------------------------

/- Word characters, at least one. -/
structure IsName (name : String) : Prop where
  ne_nil : name.toList ≠ []
  isWord : ∀ c ∈ name.toList, Text.isWord c = true

theorem isName_iff :
    IsName name ↔
      name.toList ≠ [] ∧ name.toList.all Text.isWord = true := by
  rw [List.all_eq_true]
  exact ⟨fun hName => ⟨hName.1, hName.2⟩, fun h => ⟨h.1, h.2⟩⟩

instance decidableIsName (name : String) : Decidable (IsName name) :=
  decidable_of_iff _ isName_iff.symm

/- The signs around names are no word characters. -/
theorem isWord_signs :
    ∀ c ∈ ['=', ' ', '\n', '\r'], Text.isWord c = false := by
  have hTable :
      ∀ n ∈ [0x3d, 0x20, 0xa, 0xd],
        Text.inRanges Text.wordRanges n = false := by
    simp only [Text.inRanges, ← Array.any_toList]
    decide +kernel
  exact fun c hc => hTable _ (List.mem_map_of_mem hc)

theorem IsName.isUnbroken
    (hName : IsName name) :
    Text.IsUnbroken name.toList := by
  have hOther (sign : Char) (hSign : Text.isWord sign = false) :
      ∀ c ∈ name.toList, c ≠ sign := by
    rintro c hc rfl
    rw [hName.isWord c hc] at hSign
    cases hSign
  intro c hc
  exact
    ⟨hOther '\n' (isWord_signs _ (by simp)) c hc,
      hOther '\r' (isWord_signs _ (by simp)) c hc⟩

theorem name?_eq_some_iff
    {s : List Char} :
    name? s = some (name, rest) ↔
      IsName name ∧ s = name.toList ++ rest ∧
        Text.Stops Text.isWord rest := by
  have hRead :
      name? s = some (name, rest) ↔
        name.toList ≠ [] ∧ s.takeWhile Text.isWord = name.toList ∧
          s.dropWhile Text.isWord = rest := by
    rw [name?]
    split
    · rename_i hEmpty
      rw [List.isEmpty_iff] at hEmpty
      simp only [reduceCtorEq, hEmpty, false_iff, not_and]
      intro hSome hTaken
      exact absurd hTaken.symm hSome
    · rename_i hSome
      rw [List.isEmpty_iff] at hSome
      simp only [Option.some.injEq, Prod.mk.injEq]
      constructor
      · rintro ⟨rfl, rfl⟩
        rw [String.toList_ofList]
        exact ⟨hSome, rfl, rfl⟩
      · rintro ⟨-, hTaken, rfl⟩
        rw [hTaken, String.ofList_toList]
        exact ⟨rfl, rfl⟩
  rw [hRead, Text.takeWhile_dropWhile_iff]
  constructor
  · rintro ⟨hSome, hText, hWord, hStops⟩
    exact ⟨⟨hSome, hWord⟩, hText, hStops⟩
  · rintro ⟨⟨hSome, hWord⟩, hText, hStops⟩
    exact ⟨hSome, hText, hWord, hStops⟩

------------------------------------------------------------
-- Lines
------------------------------------------------------------

/- The ways to write a line about an option. -/
inductive IsWritten : List Char → String → Bool → Prop
  /- The line `CONFIG_NAME=VALUE`. -/
  | valued
      {name : String}
      {value : List Char}
      (hName : IsName name)
      (hValue : '\n' ∉ value) :
      IsWritten
        ("CONFIG_".toList ++ (name.toList ++ '=' :: value))
        name true
  /- The line `# CONFIG_NAME is not set`. -/
  | unset
      {name : String}
      (hName : IsName name) :
      IsWritten
        ("# CONFIG_".toList ++
          (name.toList ++ " is not set".toList))
        name false

/- What is found out about a name behind the start of a line. -/
theorem bind_name?_eq_some_iff
    {start : List Char}
    {check? : String × List Char → Option String} :
    ((Text.dropPrefix? start line).bind fun s =>
        (name? s).bind check?) = some name ↔
      ∃ found rest,
        IsName found ∧ line = start ++ (found.toList ++ rest) ∧
          Text.Stops Text.isWord rest ∧
          check? (found, rest) = some name := by
  constructor
  · intro hRead
    rcases Option.bind_eq_some_iff.mp hRead with
      ⟨s, hStart, hBehind⟩
    rcases Option.bind_eq_some_iff.mp hBehind with
      ⟨⟨found, rest⟩, hNext, hFound⟩
    rcases name?_eq_some_iff.mp hNext with ⟨hName, rfl, hStops⟩
    rw [Text.dropPrefix?_eq_some_iff] at hStart
    exact ⟨found, rest, hName, hStart, hStops, hFound⟩
  · rintro ⟨found, rest, hName, rfl, hStops, hFound⟩
    rw [Text.dropPrefix?_eq_some_iff.mpr rfl, Option.bind_some,
      name?_eq_some_iff.mpr ⟨hName, rfl, hStops⟩,
      Option.bind_some]
    exact hFound

theorem valued?_eq_some_iff :
    valued? line = some name ↔ IsWritten line name true := by
  refine bind_name?_eq_some_iff.trans ⟨?_, ?_⟩
  · rintro ⟨found, rest, hName, rfl, -, hFound⟩
    dsimp only at hFound
    split at hFound
    · rename_i value
      split at hFound
      · cases hFound
      · rename_i hValue
        cases hFound
        exact .valued hName (by simpa using hValue)
    · cases hFound
  · intro hWritten
    cases hWritten with
    | valued hName hValue =>
        have hStops :=
          Text.stops_cons (isWord_signs '=' (by simp))
        exact ⟨_, _, hName, rfl, hStops _, by simp [hValue]⟩

theorem unset?_eq_some_iff :
    unset? line = some name ↔ IsWritten line name false := by
  refine bind_name?_eq_some_iff.trans ⟨?_, ?_⟩
  · rintro ⟨found, rest, hName, rfl, -, hFound⟩
    dsimp only at hFound
    split at hFound
    · rename_i hEnd
      cases hFound
      subst hEnd
      exact .unset hName
    · cases hFound
  · intro hWritten
    cases hWritten with
    | unset hName =>
        have hStops :=
          Text.stops_cons (isWord_signs ' ' (by simp))
        exact ⟨_, _, hName, rfl, hStops _, if_pos rfl⟩

/- No line gives an option a value and says that it is not set. -/
theorem valued?_eq_none
    (hWritten : IsWritten line name false) :
    valued? line = none := by
  cases hWritten with
  | unset hName => rfl

/- A line is read as what is written in it. -/
theorem readOption?_eq_some_iff :
    readOption? line = some (name, set) ↔
      IsWritten line name set := by
  have hSet (hWritten : IsWritten line name true) :
      readOption? line = some (name, true) := by
    rw [readOption?, valued?_eq_some_iff.mpr hWritten]
  have hUnset (hWritten : IsWritten line name false) :
      readOption? line = some (name, false) := by
    rw [readOption?, valued?_eq_none hWritten,
      unset?_eq_some_iff.mpr hWritten]
    rfl
  constructor
  · intro hRead
    rw [readOption?] at hRead
    split at hRead
    · rename_i hValued
      cases hRead
      exact valued?_eq_some_iff.mp hValued
    · rcases Option.map_eq_some_iff.mp hRead with
        ⟨name', hName, hEq⟩
      cases hEq
      exact unset?_eq_some_iff.mp hName
  · cases set with
    | true => exact hSet
    | false => exact hUnset

/- The line for an option is read back. -/
theorem readOption?_optionLine
    (hName : IsName name)
    (enabled : Bool) :
    readOption? (optionLine name enabled).toList =
      some (name, enabled) := by
  rw [readOption?_eq_some_iff]
  cases enabled with
  | true =>
      have hLine :
          (optionLine name true).toList =
            "CONFIG_".toList ++ (name.toList ++ ['=', 'y']) := by
        simp [optionLine]
      rw [hLine]
      exact .valued hName (by decide)
  | false =>
      have hLine :
          (optionLine name false).toList =
            "# CONFIG_".toList ++
              (name.toList ++ " is not set".toList) := by
        simp [optionLine]
      rw [hLine]
      exact .unset hName

theorem isUnbroken_optionLine
    (hName : IsName name)
    (enabled : Bool) :
    Text.IsUnbroken (optionLine name enabled).toList := by
  have hFixed :
      ∀ s ∈ ["CONFIG_", "=y", "# CONFIG_", " is not set"],
        Text.IsUnbroken s.toList := by
    decide
  unfold optionLine Text.IsUnbroken
  cases enabled
  all_goals
    simp only [Bool.false_eq_true, if_true, if_false,
      String.toList_append, List.forall_mem_append]
    exact
      ⟨⟨hFixed _ (by simp), hName.isUnbroken⟩,
        hFixed _ (by simp)⟩

/- A return at its end does not change what a line is about. -/
theorem readOption?_dropReturn
    (hRead : readOption? line = some (name, set)) :
    readOption? (Text.dropReturn line) = some (name, set) := by
  rcases Text.dropReturn_eq_or line with hSame | hReturn
  · rwa [hSame]
  rw [readOption?_eq_some_iff] at hRead ⊢
  generalize Text.dropReturn line = front at hReturn ⊢
  cases hRead with
  | @valued _ value hName hValue =>
      rcases List.eq_nil_or_concat' value with
        rfl | ⟨value, c, rfl⟩
      · rw [← List.append_assoc] at hReturn
        exact absurd (List.append_inj' hReturn rfl).2 (by decide)
      · rw [← List.cons_append, ← List.append_assoc,
          ← List.append_assoc] at hReturn
        rcases List.append_inj' hReturn rfl with ⟨rfl, -⟩
        rw [List.append_assoc]
        exact
          .valued hName fun hFeed =>
            hValue (List.mem_append_left _ hFeed)
  | unset hName =>
      have hEnd :
          " is not set".toList = " is not se".toList ++ ['t'] :=
        rfl
      rw [hEnd, ← List.append_assoc, ← List.append_assoc]
        at hReturn
      exact absurd (List.append_inj' hReturn rfl).2 (by decide)

------------------------------------------------------------
-- Rulings
------------------------------------------------------------

/- Whether a line sets an option, if it is about it. -/
def ruling? (name : String) (line : List Char) : Option Bool :=
  match readOption? line with
  | some (name', set) => if name' = name then some set else none
  | none => none

theorem ruling?_eq_some_iff :
    ruling? name line = some set ↔
      readOption? line = some (name, set) := by
  unfold ruling?
  split
  · rename_i name' set' hRead
    by_cases hName : name' = name <;> simp [hRead, hName]
  · rename_i hNone
    simp [hNone]

/- A line is about one option at most. -/
theorem ruling?_eq_none
    {other : String}
    (hRead : readOption? line = some (other, set))
    (hOther : name ≠ other) :
    ruling? name line = none := by
  rw [ruling?, hRead]
  exact if_neg (Ne.symm hOther)

theorem ruling?_optionLine
    (hName : IsName name)
    (enabled : Bool) :
    ruling? name (optionLine name enabled).toList =
      some enabled :=
  ruling?_eq_some_iff.mpr (readOption?_optionLine hName enabled)

/- Of several lines for an option the first one. -/
def firstRuling (name : String) (ls : List (List Char)) :
    Option Bool :=
  ls.findSome? (ruling? name)

/- Of several lines for an option the last one. -/
def lastRuling (name : String) (ls : List (List Char)) :
    Option Bool :=
  ls.reverse.findSome? (ruling? name)

theorem firstRuling_cons
    (name : String)
    (line : List Char)
    (ls : List (List Char)) :
    firstRuling name (line :: ls) =
      (ruling? name line).or (firstRuling name ls) := by
  rw [firstRuling, List.findSome?_cons]
  cases ruling? name line <;> rfl

theorem lastRuling_cons
    (name : String)
    (line : List Char)
    (ls : List (List Char)) :
    lastRuling name (line :: ls) =
      (lastRuling name ls).or (ruling? name line) := by
  rw [lastRuling, List.reverse_cons, List.findSome?_append,
    List.findSome?_singleton]
  rfl

end DotConfig

end Variability
