import CoverageFlow.Proofs.Text.Split
import CoverageFlow.Text.Numeral
import Mathlib

/-!
# Reading the DOT language

The part of the language that diagrams use: a graph with a quoted name, and one statement a line. A
statement draws a node or an edge; its attributes stand in brackets and are not looked into.

A backslash in a quoted string takes the next character along, so the string ends at the first quote
that is not taken along. If nothing but the quotes of a name is escaped, a backslash that the name
has itself can take the wrong character: the one put before a quote, or the closing quote. This
happens where an odd number of backslashes stands before a quote or at the end of the name, and
nowhere else.

## Main definitions

* `quoted?`: reads a quoted string.
* `escape`, `unescape`: puts backslashes before quotes, and takes them away again.
* `EvenSlashes`: backslashes before a quote or at the end come in pairs.
* `statement?`, `statements?`: what a line draws, and the lines up to the closing brace.
* `read?`: the graph that a text draws.

## Main results

* `unescape_escape`: escaping loses nothing.
* `quoted?_escape_iff`: which names are closed by the closing quote.
* `statements?_splitChars`: statements with a line each are read in their order.
* `read?_eq`: which names let a graph be read, and nothing is read of the others.
-/

namespace CoverageFlow.Dot

/-! ### Quoted strings -/

/-- Puts a character in front of the first list. -/
def push (c : Char) (parts : List Char × List Char) : List Char × List Char :=
  (c :: parts.1, parts.2)

/-- Cuts what comes after an opening quote at the closing one. `taken` tells whether a backslash
takes the first character along. -/
def quoted? (taken : Bool) : List Char → Option (List Char × List Char)
  | [] => none
  | c :: cs =>
    if c = '"' ∧ taken = false then some ([], cs)
    else (quoted? (!taken && c = '\\') cs).map (push c)

/-- Puts a backslash before every quote. -/
def escape : List Char → List Char
  | [] => []
  | c :: cs => if c = '"' then '\\' :: '"' :: escape cs else c :: escape cs

/-- Turns every backslash with a quote after it into the quote. -/
def unescape : List Char → List Char
  | [] => []
  | c :: cs => if c = '\\' ∧ cs.head? = some '"' then unescape cs else c :: unescape cs

/-- The number of backslashes at the end of a text. -/
def slashes (cs : List Char) : ℕ := (cs.rtakeWhile (· = '\\')).length

/-- Wherever a quote follows, and at the end, the number of backslashes is even. -/
def EvenSlashes (cs : List Char) : Prop :=
  ∀ k ≤ cs.length, cs[k]?.all (· = '"') → Even (slashes (cs.take k))

instance : DecidablePred EvenSlashes := fun _ => Nat.decidableBallLE _ _

section Quoted

variable {taken : Bool} {c : Char} {cs before rest rest' body : List Char}

theorem escape_eq_flatMap (cs : List Char) :
    escape cs = cs.flatMap fun c => if c = '"' then ['\\', '"'] else [c] := by
  induction cs with
  | nil => rfl
  | cons c cs ih => rw [escape, ih, List.flatMap_cons]; split <;> rfl

theorem escape_cons_of_ne (h : c ≠ '"') : escape (c :: cs) = c :: escape cs := if_neg h

theorem unescape_cons (h : ¬ (c = '\\' ∧ cs.head? = some '"')) :
    unescape (c :: cs) = c :: unescape cs := if_neg h

theorem unescape_slash_quote (cs : List Char) :
    unescape ('\\' :: '"' :: cs) = '"' :: unescape cs := by
  rw [unescape, if_pos ⟨rfl, rfl⟩, unescape_cons fun h => absurd h.1 (by decide)]

/-- No escaped text starts with a quote. -/
theorem head?_escape_ne (cs : List Char) : (escape cs).head? ≠ some '"' := by
  cases cs with
  | nil => exact nofun
  | cons c cs =>
    rw [escape]
    split
    · exact fun h => absurd (Option.some.inj h) (by decide)
    · next hc => exact fun h => hc (Option.some.inj h)

/-- Escaping loses nothing. -/
theorem unescape_escape (cs : List Char) : unescape (escape cs) = cs := by
  induction cs with
  | nil => rfl
  | cons c cs ih =>
    rw [escape]
    split
    · next hc => rw [unescape_slash_quote, ih, hc]
    · rw [unescape_cons fun h => head?_escape_ne cs h.2, ih]

theorem quoted?_cons_eq_some_iff : quoted? taken (c :: cs) = some (body, rest) ↔
    (c = '"' ∧ taken = false) ∧ body = [] ∧ rest = cs ∨
      ¬ (c = '"' ∧ taken = false) ∧
        ∃ body', body = c :: body' ∧ quoted? (!taken && c = '\\') cs = some (body', rest) := by
  rw [quoted?]
  split
  · next hc => simp [hc, eq_comm]
  · next hc => simp [hc, push, and_comm, eq_comm]

/-- What was read and what is left make up the text. -/
theorem eq_of_quoted? (h : quoted? taken cs = some (body, rest)) : cs = body ++ '"' :: rest := by
  induction cs generalizing taken body with
  | nil => cases h
  | cons c cs ih =>
    obtain ⟨⟨rfl, -⟩, rfl, rfl⟩ | ⟨-, body, rfl, hread⟩ := quoted?_cons_eq_some_iff.1 h
    · rfl
    · rw [ih hread, List.cons_append]

/-! ### Backslashes in pairs -/

theorem slashes_concat (cs : List Char) (c : Char) :
    slashes (cs ++ [c]) = if c = '\\' then slashes cs + 1 else 0 := by
  rw [slashes, List.rtakeWhile_concat]
  split <;> simp_all [slashes]

theorem quoted?_cons_eq_cons_iff : quoted? taken (c :: cs) = some (c :: body, rest) ↔
    ¬ (c = '"' ∧ taken = false) ∧ quoted? (!taken && c = '\\') cs = some (body, rest) := by
  rw [quoted?_cons_eq_some_iff]
  simp

/-- Conditions on the places before a quote, and at the end, for one character more. -/
theorem forall_take_cons (p : List Char → Prop) (c : Char) (cs : List Char) :
    (∀ k ≤ (c :: cs).length, (c :: cs)[k]?.all (· = '"') → p ((c :: cs).take k)) ↔
      (c = '"' → p []) ∧ ∀ k ≤ cs.length, cs[k]?.all (· = '"') → p (c :: cs.take k) := by
  constructor
  · intro h
    exact ⟨fun hc => h 0 (Nat.zero_le _) (by simpa using hc),
      fun k hk hquote => h (k + 1) (Nat.succ_le_succ hk) (by simpa using hquote)⟩
  · rintro ⟨hfirst, h⟩ (- | k) hk hquote
    · exact hfirst (by simpa using hquote)
    · exact h k (Nat.le_of_succ_le_succ hk) (by simpa using hquote)

/-- An escaped name is read as a whole if no quote of it, and not the closing one, comes after an
odd number of backslashes: these would take it along. -/
theorem quoted?_escape (before cs rest : List Char) :
    quoted? (decide (Odd (slashes before))) (escape cs ++ '"' :: rest) = some (escape cs, rest) ↔
      ∀ k ≤ cs.length, cs[k]?.all (· = '"') → Even (slashes (before ++ cs.take k)) := by
  induction cs generalizing before with
  | nil =>
    rw [escape, List.nil_append, quoted?_cons_eq_some_iff]
    simp
  | cons c cs ih =>
    -- The character is the last one of what comes before the others.
    have hread := ih (before ++ [c])
    rw [slashes_concat] at hread
    simp only [List.append_assoc, List.singleton_append] at hread
    rw [forall_take_cons fun front => Even (slashes (before ++ front)), ← hread, List.append_nil]
    by_cases hquote : c = '"'
    · subst hquote
      rw [escape, if_pos rfl, List.cons_append, List.cons_append, quoted?_cons_eq_cons_iff,
        quoted?_cons_eq_cons_iff]
      simp
    · rw [escape_cons_of_ne hquote, List.cons_append, quoted?_cons_eq_cons_iff]
      by_cases hslash : c = '\\'
      · subst hslash
        rw [if_pos rfl, decide_eq_decide.2 Nat.odd_add_one, decide_not]
        simp
      · simp [hquote, hslash]

/-- The closing quote is at its place if and only if backslashes before a quote and at the end of
the name come in pairs. -/
theorem quoted?_escape_iff :
    (∃ body, quoted? false (escape cs ++ '"' :: rest) = some (body, rest)) ↔ EvenSlashes cs := by
  have hwhole := quoted?_escape [] cs rest
  refine ⟨fun ⟨body, hread⟩ => ?_, fun heven => ⟨escape cs, hwhole.2 heven⟩⟩
  obtain rfl := List.append_cancel_right (eq_of_quoted? hread)
  exact hwhole.1 hread

/-- Wherever the string is closed: at its end, at a quote of the name, or at one that comes after
the closing quote. -/
theorem rest_of_quoted?_escape (h : quoted? taken (escape cs ++ '"' :: rest) = some (body, rest')) :
    rest' = rest ∨ (∃ tail, rest' = escape tail ++ '"' :: rest) ∨
      ∃ body', quoted? false rest = some (body', rest') := by
  induction cs generalizing taken body with
  | nil =>
    obtain ⟨-, -, rfl⟩ | ⟨-, body, -, hread⟩ := quoted?_cons_eq_some_iff.1 h
    · exact .inl rfl
    · rw [show (!taken && decide ('"' = '\\')) = false from Bool.and_false _] at hread
      exact .inr (.inr ⟨body, hread⟩)
  | cons c cs ih =>
    by_cases hquote : c = '"'
    · subst hquote
      rw [escape, if_pos rfl] at h
      obtain ⟨⟨hslash, -⟩, -⟩ | ⟨-, body, -, hread⟩ := quoted?_cons_eq_some_iff.1 h
      · exact absurd hslash (by decide)
      · obtain ⟨-, -, rfl⟩ | ⟨-, body, -, hread⟩ := quoted?_cons_eq_some_iff.1 hread
        · exact .inr (.inl ⟨cs, rfl⟩)
        · exact ih hread
    · rw [escape_cons_of_ne hquote] at h
      obtain ⟨⟨hc, -⟩, -⟩ | ⟨-, body, -, hread⟩ := quoted?_cons_eq_some_iff.1 h
      · exact absurd hc hquote
      · exact ih hread

/-- Names without a backslash are read as they are. -/
theorem evenSlashes_of_notMem (h : '\\' ∉ cs) : EvenSlashes cs := by
  intro k _ _
  have hnone : slashes (cs.take k) = 0 := by
    rw [slashes, List.length_eq_zero_iff, List.rtakeWhile_eq_nil_iff]
    intro hne hlast
    have hmem := List.mem_of_mem_take (List.getLast_mem hne)
    rw [of_decide_eq_true hlast] at hmem
    exact h hmem
  rw [hnone]
  exact Even.zero

theorem quoted?_of_notMem (hquote : '"' ∉ cs) (hslash : '\\' ∉ cs) :
    quoted? false (cs ++ '"' :: rest) = some (cs, rest) := by
  have hescape : escape cs = cs := by
    rw [escape_eq_flatMap]
    refine (List.flatMap_congr fun c hc => if_neg ?_).trans (List.flatMap_singleton' cs)
    exact fun heq => hquote (heq ▸ hc)
  have hread := (quoted?_escape [] cs rest).2 (evenSlashes_of_notMem hslash)
  rwa [hescape] at hread

end Quoted

/-! ### Statements -/

/-- What a statement draws. -/
inductive Statement where
  | node (number : ℕ)
  | edge (source target : ℕ)
deriving DecidableEq

/-- The number at the beginning of a text, and what follows it. -/
def number? (cs : List Char) : Option (ℕ × List Char) :=
  if cs.takeWhile Char.isDigit = [] then none
  else some (Nat.ofDigitChars 10 (cs.takeWhile Char.isDigit) 0, cs.dropWhile Char.isDigit)

/-- A statement ends with attributes in brackets. -/
def Attributes (cs : List Char) : Prop := " [".toList <+: cs ∧ "]".toList <:+ cs

instance : DecidablePred Attributes := fun _ => inferInstanceAs (Decidable (_ ∧ _))

/-- What a line draws, if there is a statement on it. -/
def statement? (line : List Char) : Option Statement := do
  let source ← number? (← "\t".toList.isPrefixOf? line)
  if Attributes source.2 then some (.node source.1)
  else
    let target ← number? (← " -> ".toList.isPrefixOf? source.2)
    if Attributes target.2 then some (.edge source.1 target.1) else none

/-- What the lines up to the closing brace draw. Nothing comes after the brace. -/
def statements? : List (List Char) → Option (List Statement)
  | [] => none
  | line :: lines =>
    if line = ['\x7d'] then if lines = [[]] then some [] else none
    else do return (← statement? line) :: (← statements? lines)

/-- A graph with a name, as a text draws it. -/
structure Drawing where
  name : String
  statements : List Statement
deriving DecidableEq

/-- What stands before the name, its opening quote included. -/
def keyword : List Char := "digraph \"".toList

/-- What stands between the name and the statements: a brace, and how nodes look. -/
def opening : List Char := " \x7b\n\tnode[shape=plain]\n".toList

/-- The graph that a text draws. -/
def read? (text : List Char) : Option Drawing := do
  let name ← quoted? false (← keyword.isPrefixOf? text)
  let body ← opening.isPrefixOf? name.2
  return ⟨String.ofList (unescape name.1), ← statements? (Text.splitChars '\n' body)⟩

section Statements

variable {n m : ℕ} {cs line rest : List Char} {lines : List (List Char)} {a b last : String}
  {statement : Statement} {statements : List Statement}

theorem number?_toDigits (h : ∀ c ∈ rest.head?, c.isDigit = false) :
    number? (Nat.toDigits 10 n ++ rest) = some (n, rest) := by
  have hdigits : ∀ c ∈ Nat.toDigits 10 n, c.isDigit = true := fun c hc =>
    Nat.isDigit_of_mem_toDigits (by decide) (by decide) hc
  have hrest : rest.takeWhile Char.isDigit = [] ∧ rest.dropWhile Char.isDigit = rest := by
    cases rest with
    | nil => exact ⟨rfl, rfl⟩
    | cons c rest =>
      have hc := h c rfl
      rw [List.takeWhile_cons, List.dropWhile_cons, hc]
      exact ⟨rfl, rfl⟩
  rw [number?, List.takeWhile_append_of_pos hdigits, List.dropWhile_append_of_pos hdigits,
    hrest.1, hrest.2, List.append_nil, if_neg Nat.toDigits_ne_nil,
    Nat.ofDigitChars_toDigits (by decide) (by decide)]

/-- A text is on one line. -/
def OneLine (text : String) : Prop := '\n' ∉ text.toList

instance : DecidablePred OneLine := fun _ => inferInstanceAs (Decidable (¬ _))

theorem OneLine.append (ha : OneLine a) (hb : OneLine b) : OneLine (a ++ b) := by
  rw [OneLine, String.toList_append, List.mem_append]
  exact not_or.2 ⟨ha, hb⟩

theorem OneLine.intercalate {texts : List String} (h : ∀ text ∈ texts, OneLine text) :
    OneLine (",".intercalate texts) := by
  intro hmem
  have hjoin : (",".intercalate texts).toList = (Text.join ',' texts).toList := by
    rw [String.toList_intercalate, Text.toList_join]
    rfl
  rw [hjoin] at hmem
  obtain hcomma | ⟨text, htext, hbreak⟩ := Text.mem_join hmem
  · exact absurd hcomma (by decide)
  · exact h text htext hbreak

/-- No numeral has a line break. -/
theorem newline_notMem_toDigits {base : ℕ} (h : 1 < base) (n : ℕ) :
    '\n' ∉ Nat.toDigits base n := by
  induction n using Nat.strongRecOn with
  | _ n ih =>
    have hdigit : ∀ k : ℕ, '\n' ≠ k.digitChar := fun k => (Nat.digitChar_ne '\n' rfl).symm
    rw [Nat.toDigits_eq_if h]
    split
    · exact List.mem_singleton.not.2 (hdigit n)
    · next hn =>
      rw [List.mem_append, List.mem_singleton]
      exact not_or.2 ⟨ih _ (Nat.div_lt_self (by omega) h), hdigit _⟩

theorem oneLine_decimal (n : ℕ) : OneLine (Text.decimal n) := by
  rw [OneLine, Text.decimal, String.toList_ofList]
  exact newline_notMem_toDigits (by decide) n

theorem oneLine_write (style : Text.HexStyle) (n : ℕ) : OneLine (style.write n) := by
  have hpad : ∀ width, OneLine (Text.padStart width '0' (Text.hexadecimal n)) := by
    intro width
    refine OneLine.append ?_ ?_
    · rw [OneLine, String.toList_ofList, List.mem_replicate]
      exact fun h => absurd h.2 (by decide)
    · rw [OneLine, Text.hexadecimal, String.toList_ofList]
      exact newline_notMem_toDigits (by decide) n
  rw [Text.HexStyle.write]
  split
  · exact OneLine.append (by decide) (hpad _)
  · exact hpad _

/-- A text is a line with a statement. -/
def IsLine (text : String) (statement : Statement) : Prop :=
  ∃ line : String, text = line ++ "\n" ∧ OneLine line ∧ statement? line.toList = some statement

theorem number?_of_attributes (n : ℕ) (h : Attributes rest) :
    number? (Nat.toDigits 10 n ++ rest) = some (n, rest) := by
  refine number?_toDigits ?_
  obtain ⟨⟨rest, rfl⟩, -⟩ := h
  rintro _ ⟨⟩
  rfl

/-- A number and attributes make a node. -/
theorem statement?_node (n : ℕ) (h : Attributes rest) :
    statement? ("\t".toList ++ (Nat.toDigits 10 n ++ rest)) = some (.node n) := by
  rw [statement?, List.isPrefixOf?_eq_some_iff_append_eq.2 rfl]
  simp only [Option.bind_eq_bind, Option.bind_some]
  rw [number?_of_attributes n h, Option.bind_some, if_pos h]

/-- Two numbers, an arrow between them, and attributes make an edge. -/
theorem statement?_edge (n m : ℕ) (h : Attributes rest) :
    statement? ("\t".toList ++
      (Nat.toDigits 10 n ++ (" -> ".toList ++ (Nat.toDigits 10 m ++ rest)))) =
        some (.edge n m) := by
  have harrow : ¬ Attributes (" -> ".toList ++ (Nat.toDigits 10 m ++ rest)) := by
    rintro ⟨⟨_, hstart⟩, -⟩
    exact absurd (List.cons.inj (List.cons.inj hstart).2).1 (by decide)
  rw [statement?, List.isPrefixOf?_eq_some_iff_append_eq.2 rfl]
  simp only [Option.bind_eq_bind, Option.bind_some]
  rw [number?_toDigits (by rintro _ ⟨⟩; rfl), Option.bind_some, if_neg harrow,
    List.isPrefixOf?_eq_some_iff_append_eq.2 rfl, Option.bind_some, number?_of_attributes m h,
    Option.bind_some, if_pos h]

/-- A text is the beginning of a line with a statement, up to somewhere in the attributes. -/
def Opens (text : String) (statement : Statement) : Prop :=
  OneLine text ∧ ∃ head attributes, text.toList = head ++ (" [".toList ++ attributes) ∧
    ∀ rest, Attributes rest → statement? (head ++ rest) = some statement

theorem Opens.append (h : Opens a statement) (hb : OneLine b) :
    Opens (a ++ b) statement := by
  obtain ⟨ha, head, attributes, htext, hread⟩ := h
  refine ⟨ha.append hb, head, attributes ++ b.toList, ?_, hread⟩
  rw [String.toList_append, htext, List.append_assoc, List.append_assoc]

/-- The line ends with the bracket that closes the attributes. -/
theorem Opens.isLine (h : Opens a statement) (b : String)
    (hlast : last = b ++ "]" ++ "\n") (hb : OneLine b) : IsLine (a ++ last) statement := by
  obtain ⟨ha, head, attributes, htext, hread⟩ := h
  refine ⟨a ++ (b ++ "]"), ?_, ha.append (hb.append (by decide)), ?_⟩
  · rw [hlast, String.append_assoc, String.append_assoc, String.append_assoc]
  · have hattributes : Attributes (" [".toList ++ (attributes ++ (b.toList ++ "]".toList))) := by
      refine ⟨List.prefix_append _ _, ?_⟩
      simp only [← List.append_assoc]
      exact List.suffix_append _ _
    have hline := hread _ hattributes
    simpa only [String.toList_append, htext, List.append_assoc] using hline

theorem opens_node (n : ℕ) (first : String) (hstart : " [".toList <+: first.toList)
    (hfirst : OneLine first) : Opens ("\t" ++ Text.decimal n ++ first) (.node n) := by
  obtain ⟨attributes, hattributes⟩ := hstart
  refine ⟨((by decide : OneLine "\t").append (oneLine_decimal n)).append hfirst,
    "\t".toList ++ Nat.toDigits 10 n, attributes, ?_, fun rest hrest => ?_⟩
  · rw [hattributes]
    simp only [String.toList_append, Text.decimal, String.toList_ofList]
  · rw [List.append_assoc]
    exact statement?_node n hrest

theorem opens_edge (n m : ℕ) (first : String) (hstart : " [".toList <+: first.toList)
    (hfirst : OneLine first) :
    Opens ("\t" ++ Text.decimal n ++ " -> " ++ Text.decimal m ++ first) (.edge n m) := by
  obtain ⟨attributes, hattributes⟩ := hstart
  refine ⟨((((by decide : OneLine "\t").append (oneLine_decimal n)).append (by decide)).append
    (oneLine_decimal m)).append hfirst,
    "\t".toList ++ (Nat.toDigits 10 n ++ (" -> ".toList ++ Nat.toDigits 10 m)), attributes, ?_,
    fun rest hrest => ?_⟩
  · rw [hattributes]
    simp only [String.toList_append, Text.decimal, String.toList_ofList, List.append_assoc]
  · simp only [List.append_assoc]
    exact statement?_edge n m hrest

/-! ### Texts of several lines -/

theorem splitChars_append_cons (h : '\n' ∉ line) :
    Text.splitChars '\n' (line ++ '\n' :: cs) = line :: Text.splitChars '\n' cs := by
  rw [Text.splitChars_eq_splitOn, Text.splitChars_eq_splitOn, List.splitOn_append_cons_self,
    List.splitOn_eq_singleton h, List.singleton_append]

/-- Statements with a line each, and a brace after them, are read in their order. -/
theorem statements?_splitChars {texts : List String} (h : List.Forall₂ IsLine texts statements) :
    statements? (Text.splitChars '\n' (String.join texts ++ "\x7d\n").toList) =
      some statements := by
  induction h with
  | nil => rfl
  | @cons text statement texts statements hline _ ih =>
    obtain ⟨line, rfl, hbreak, hread⟩ := hline
    have hcut : (String.join ((line ++ "\n") :: texts) ++ "\x7d\n").toList =
        line.toList ++ '\n' :: (String.join texts ++ "\x7d\n").toList := by
      simp [String.join_cons]
    have hbrace : line.toList ≠ ['\x7d'] := by
      intro hbrace
      rw [hbrace] at hread
      cases hread
    rw [hcut, splitChars_append_cons hbreak, statements?, if_neg hbrace, hread, ih]
    rfl

/-- What stands before a line break is the end of a line. -/
theorem exists_mem_splitChars (before line rest : List Char) (h : '\n' ∉ line) :
    ∃ l ∈ Text.splitChars '\n' (before ++ (line ++ '\n' :: rest)), line <:+ l := by
  induction before with
  | nil =>
    rw [List.nil_append, splitChars_append_cons h]
    exact ⟨line, List.mem_cons_self, List.suffix_rfl⟩
  | cons c before ih =>
    obtain ⟨l, hl, hsuffix⟩ := ih
    rw [List.cons_append, Text.splitChars]
    split
    · exact ⟨l, List.mem_cons_of_mem _ hl, hsuffix⟩
    · obtain ⟨first, others, hsplit⟩ := List.exists_cons_of_ne_nil
        (Text.splitChars_ne_nil '\n' (before ++ (line ++ '\n' :: rest)))
      rw [hsplit] at hl ⊢
      obtain rfl | hl := List.mem_cons.1 hl
      · exact ⟨c :: l, List.mem_cons_self, hsuffix.trans (List.suffix_cons c l)⟩
      · exact ⟨l, List.mem_cons_of_mem _ hl, hsuffix⟩

theorem suffix_of_number? (h : number? cs = some (n, rest)) : rest <:+ cs := by
  rw [number?] at h
  split at h
  · cases h
  · cases h
    exact List.dropWhile_suffix _

/-- A statement ends with a bracket. -/
theorem suffix_of_statement? (h : statement? line = some statement) : "]".toList <:+ line := by
  obtain ⟨start, hstart, h⟩ := Option.bind_eq_some_iff.1 h
  have hline : start <:+ line := ⟨_, List.isPrefixOf?_eq_some_iff_append_eq.1 hstart⟩
  obtain ⟨source, hsource, h⟩ := Option.bind_eq_some_iff.1 h
  have hrest := (suffix_of_number? hsource).trans hline
  split at h
  · next hattributes => exact hattributes.2.trans hrest
  · obtain ⟨arrow, harrow, h⟩ := Option.bind_eq_some_iff.1 h
    have hend : arrow <:+ source.2 := ⟨_, List.isPrefixOf?_eq_some_iff_append_eq.1 harrow⟩
    obtain ⟨target, htarget, h⟩ := Option.bind_eq_some_iff.1 h
    split at h
    · next hattributes =>
      exact hattributes.2.trans ((suffix_of_number? htarget).trans (hend.trans hrest))
    · cases h

/-- Every line that was read is a statement, or the closing brace with nothing after it. -/
theorem line_of_statements? (h : statements? lines = some statements) (hline : line ∈ lines) :
    line = [] ∨ line = ['\x7d'] ∨ "]".toList <:+ line := by
  induction lines generalizing statements with
  | nil => cases hline
  | cons first lines ih =>
    rw [statements?] at h
    split at h
    · next hfirst =>
      split at h
      · next hlines =>
        rw [hfirst, hlines, List.mem_cons, List.mem_singleton] at hline
        exact hline.elim (fun hline => .inr (.inl hline)) .inl
      · cases h
    · obtain ⟨statement, hstatement, h⟩ := Option.bind_eq_some_iff.1 h
      obtain ⟨others, hothers, -⟩ := Option.bind_eq_some_iff.1 h
      obtain rfl | hline := List.mem_cons.1 hline
      · exact .inr (.inr (suffix_of_statement? hstatement))
      · exact ih hothers hline

/-- No statements are read from lines one of which ends with an opening brace. -/
theorem statements?_eq_none (before rest : List Char) :
    statements? (Text.splitChars '\n' (before ++ (" \x7b".toList ++ '\n' :: rest))) = none := by
  rw [Option.eq_none_iff_forall_ne_some]
  intro statements h
  obtain ⟨line, hline, hbrace⟩ := exists_mem_splitChars before " \x7b".toList rest (by decide)
  obtain rfl | rfl | hbracket := line_of_statements? h hline
  · exact absurd hbrace (by decide)
  · exact absurd hbrace (by decide)
  · exact absurd (List.suffix_of_suffix_length_le hbracket hbrace (by decide)) (by decide)

/-! ### Whole texts -/

/-- The first quote of a text has no backslash before it, and no blank after it. -/
def FirstQuote (cs : List Char) : Prop :=
  ∃ before c after, cs = before ++ '"' :: c :: after ∧ c ≠ ' ' ∧ '"' ∉ before ∧ '\\' ∉ before

theorem FirstQuote.append (h : FirstQuote cs) (rest : List Char) : FirstQuote (cs ++ rest) := by
  obtain ⟨before, c, after, rfl, h⟩ := h
  exact ⟨before, c, after ++ rest, List.append_assoc _ _ _, h⟩

/-- If the string is closed inside of the name, the line of the closing quote is read for a
statement, but it ends with a brace. -/
theorem statements?_of_opening {tail body body' : List Char}
    (h : opening ++ body' = escape tail ++ '"' :: (opening ++ body)) :
    statements? (Text.splitChars '\n' body') = none := by
  have hbrace : ∀ front, statements? (Text.splitChars '\n'
      (front ++ '"' :: (opening ++ body))) = none := by
    intro front
    have hnone := statements?_eq_none (front ++ ['"']) ("\tnode[shape=plain]\n".toList ++ body)
    rwa [List.append_assoc, List.singleton_append] at hnone
  obtain ⟨front, -, rfl⟩ | ⟨front, hfront, hbody⟩ := List.append_eq_append_iff.1 h
  · exact hbrace front
  · obtain - | ⟨c, front⟩ := front
    · rw [List.nil_append] at hbody
      rw [← hbody]
      exact hbrace []
    · obtain rfl := (List.cons.inj hbody).1
      have hmem : '"' ∈ opening := hfront ▸ List.mem_append_right _ List.mem_cons_self
      exact absurd hmem (by decide)

/-- If the string is closed at a quote of the first statement, no brace comes after it. -/
theorem opening_append_ne {text body body' : List Char} (hfirst : FirstQuote body)
    (h : quoted? false (opening ++ body) = some (text, rest)) : opening ++ body' ≠ rest := by
  obtain ⟨before, c, after, rfl, hblank, hquote, hslash⟩ := hfirst
  have hread : quoted? false ((opening ++ before) ++ '"' :: c :: after) =
      some (opening ++ before, c :: after) :=
    quoted?_of_notMem (fun hmem => (List.mem_append.1 hmem).elim (by decide) hquote)
      (fun hmem => (List.mem_append.1 hmem).elim (by decide) hslash)
  rw [← List.append_assoc, hread] at h
  cases h
  exact fun hrest => hblank (List.cons.inj hrest).1.symm

/-- A graph is found if backslashes before a quote and at the end of its name come in pairs. If a
backslash takes the wrong character along, nothing is found. -/
theorem read?_eq (name : String) {body : List Char} (hfirst : FirstQuote body)
    (hbody : statements? (Text.splitChars '\n' body) = some statements) :
    read? (keyword ++ (escape name.toList ++ '"' :: (opening ++ body))) =
      if EvenSlashes name.toList then some ⟨name, statements⟩ else none := by
  rw [read?, List.isPrefixOf?_eq_some_iff_append_eq.2 rfl]
  simp only [Option.bind_eq_bind, Option.bind_some]
  split
  · next heven =>
    obtain ⟨text, hread⟩ := quoted?_escape_iff.2 heven
    obtain rfl := List.append_cancel_right (eq_of_quoted? hread)
    rw [hread, Option.bind_some, List.isPrefixOf?_eq_some_iff_append_eq.2 rfl, Option.bind_some,
      hbody, Option.bind_some, unescape_escape, String.ofList_toList]
    rfl
  · next hodd =>
    rw [Option.eq_none_iff_forall_ne_some]
    intro drawing h
    obtain ⟨⟨text, rest⟩, hread, h⟩ := Option.bind_eq_some_iff.1 h
    obtain ⟨body', hrest, h⟩ := Option.bind_eq_some_iff.1 h
    obtain ⟨statements', hstatements, -⟩ := Option.bind_eq_some_iff.1 h
    have hrest : opening ++ body' = rest := List.isPrefixOf?_eq_some_iff_append_eq.1 hrest
    -- The closing quote is at its place, or it comes too early, or too late.
    obtain rfl | ⟨tail, rfl⟩ | ⟨text', hlate⟩ := rest_of_quoted?_escape hread
    · exact hodd (quoted?_escape_iff.1 ⟨text, hread⟩)
    · rw [statements?_of_opening hrest] at hstatements
      cases hstatements
    · exact opening_append_ne hfirst hlate hrest

example : read? ("digraph \"f\" \x7b\n\tnode[shape=plain]\n\t0 [a]\n\t12 [b]\n" ++
    "\t0 -> 12 [c]\n\x7d\n").toList = some ⟨"f", [.node 0, .node 12, .edge 0 12]⟩ := by decide

end Statements

end CoverageFlow.Dot
