/-!
# Splitting text

A text is cut at every occurrence of a separator. The parts, of which there is at least one, give
the text back when they are joined by the separator.

## Main definitions

* `split`, `join`: the parts of a text, and the text of parts.
* `splitLast?`: what stands before and after the last separator.

## Main results

* `join_split`: the parts joined give the text.
-/

namespace CoverageFlow.Text

/-- Puts a character in front of the first part. -/
def consFirst (c : Char) : List (List Char) → List (List Char)
  | [] => [[c]]
  | part :: parts => (c :: part) :: parts

/-- The parts between the separators. -/
def splitChars (separator : Char) : List Char → List (List Char)
  | [] => [[]]
  | c :: cs =>
    if c = separator then [] :: splitChars separator cs
    else consFirst c (splitChars separator cs)

/-- The parts of a text between the separators. -/
def split (separator : Char) (text : String) : List String :=
  (splitChars separator text.toList).map String.ofList

/-- What stands before and after the last separator, if there is one. -/
def splitLast? (separator : Char) (text : String) : Option (String × String) :=
  let after := text.toList.reverse.takeWhile (· ≠ separator)
  match text.toList.reverse.dropWhile (· ≠ separator) with
  | [] => none
  | _ :: before => some (String.ofList before.reverse, String.ofList after.reverse)

/-- The parts joined by the separator. -/
def joinChars (separator : Char) : List (List Char) → List Char
  | [] => []
  | [part] => part
  | part :: parts => part ++ separator :: joinChars separator parts

/-- The parts of a text joined by the separator. -/
def join (separator : Char) (parts : List String) : String :=
  String.ofList (joinChars separator (parts.map String.toList))

theorem splitChars_ne_nil (separator : Char) (cs : List Char) : splitChars separator cs ≠ [] := by
  cases cs with
  | nil => simp [splitChars]
  | cons c cs =>
    unfold splitChars
    split
    · simp
    · cases splitChars separator cs <;> simp [consFirst]

theorem joinChars_consFirst (separator c : Char) {parts : List (List Char)} (h : parts ≠ []) :
    joinChars separator (consFirst c parts) = c :: joinChars separator parts := by
  match parts with
  | [] => exact absurd rfl h
  | [_] => rfl
  | _ :: _ :: _ => rfl

theorem joinChars_splitChars (separator : Char) (cs : List Char) :
    joinChars separator (splitChars separator cs) = cs := by
  induction cs with
  | nil => rfl
  | cons c cs ih =>
    have hne := splitChars_ne_nil separator cs
    unfold splitChars
    split
    · next hc =>
      match hs : splitChars separator cs with
      | [] => exact absurd hs hne
      | part :: parts => rw [joinChars, ← hs, ih, hc, List.nil_append]; simp
    · rw [joinChars_consFirst _ _ hne, ih]

theorem join_split (separator : Char) (text : String) :
    join separator (split separator text) = text := by
  simp [join, split, Function.comp_def, joinChars_splitChars]

end CoverageFlow.Text
