import CoverageFlow.Text.Numeral

/-!
# Symbols

Source file names are pooled: equal names get the same symbol, so that a name can be compared and
grouped by its number. Symbol 0 stands for an absent name.

## Main definitions

* `Symbol`: the number of a name, with its conversions to and from 64-bit numbers.
* `SymbolTable`: the names that were pooled, no two of them equal.
* `SymbolTable.intern`: the symbol of a name, added to the table if it is new.
* `SymbolTable.resolve?`, `SymbolTable.name`: the name of a symbol.

## Main results

* `SymbolTable.resolve?_intern`: a name that was pooled is the name of its symbol.
* `SymbolTable.resolve?_intern_of_some`: pooling a name changes no earlier symbol.
* `SymbolTable.resolve?_inj`: different symbols have different names.
-/

namespace CoverageFlow

/-- The number of a pooled name. -/
structure Symbol where
  /-- The position of the name in its table. -/
  index : Nat
deriving DecidableEq

namespace Symbol

/-- The symbol of an absent name. -/
def unknown : Symbol := ⟨0⟩

instance : Inhabited Symbol := ⟨unknown⟩

/-- Symbols are ordered by their numbers, hence in the order in which they were first pooled. -/
instance : Ord Symbol where
  compare a b := compare a.index b.index

theorem compare_def (a b : Symbol) : compare a b = compare a.index b.index := rfl

instance : Std.TransOrd Symbol where
  eq_swap {a b} := Std.OrientedOrd.eq_swap (a := a.index) (b := b.index)
  isLE_trans {a b c} := Std.TransOrd.isLE_trans (a := a.index) (b := b.index) (c := c.index)

instance : Std.LawfulEqOrd Symbol where
  compare_self := Std.ReflOrd.compare_self
  eq_of_compare {a b} h := by
    rw [compare_def, Std.LawfulEqOrd.compare_eq_iff_eq] at h
    cases a; cases b; simp_all

/-- The least symbol. -/
def least : Symbol := ⟨0⟩

/-- The greatest symbol a 64-bit number can hold. -/
def greatest : Symbol := ⟨UInt64.size - 1⟩

/-- The symbol with a given 64-bit number. -/
def ofUInt64 (n : UInt64) : Symbol := ⟨n.toNat⟩

/-- The symbol with a given signed number, which must not be negative. -/
def ofInt64? (n : Int64) : Option Symbol :=
  if n < 0 then none else some ⟨n.toInt.toNat⟩

/-- The number of a symbol as a signed 64-bit number, if it fits. -/
def toInt64? (s : Symbol) : Option Int64 :=
  if s.index < 0x8000000000000000 then some (Int64.ofInt s.index) else none

/-- A symbol as it appears in diagnostics. -/
def debugText (s : Symbol) : String :=
  "Symbol(" ++ Text.decimal s.index ++ ")"

end Symbol

/-- The name that symbol 0 stands for. -/
def unknownName : String := "<unknown>"

/-- A pool of names. The symbol of a name is its position. -/
structure SymbolTable where
  /-- The names, in the order in which they were pooled. -/
  names : List String
  /-- No name is pooled twice. -/
  nodup : names.Nodup
  /-- The first name is that of an absent name. -/
  head : names[0]? = some unknownName

namespace SymbolTable

/-- The table of a new pool. -/
def empty : SymbolTable where
  names := [unknownName]
  nodup := by simp
  head := rfl

instance : Inhabited SymbolTable := ⟨empty⟩

/-- The name of a symbol, if it belongs to this table. -/
def resolve? (t : SymbolTable) (s : Symbol) : Option String :=
  t.names[s.index]?

/-- The name of a symbol of this table. -/
def name (t : SymbolTable) (s : Symbol) : String :=
  (t.resolve? s).getD unknownName

/-- The table with a name that it does not hold yet. -/
def push (t : SymbolTable) (s : String) (h : s ∉ t.names) : SymbolTable where
  names := t.names ++ [s]
  nodup := by
    rw [List.nodup_append]
    refine ⟨t.nodup, by simp, fun a ha b hb hab => h ?_⟩
    rw [List.mem_singleton] at hb
    exact hb ▸ hab ▸ ha
  head := by
    have := t.head
    rw [List.getElem?_append_left (by
      cases hn : t.names with
      | nil => simp [hn] at this
      | cons => simp)]
    exact this

/-- The symbol of a name, and the table that holds it. -/
def intern (t : SymbolTable) (s : String) : Symbol × SymbolTable :=
  if h : s ∈ t.names then (⟨t.names.idxOf s⟩, t) else (⟨t.names.length⟩, t.push s h)

theorem resolve?_unknown (t : SymbolTable) : t.resolve? .unknown = some unknownName :=
  t.head

theorem resolve?_intern (t : SymbolTable) (s : String) :
    (t.intern s).2.resolve? (t.intern s).1 = some s := by
  unfold intern resolve?
  split
  · next h => simp [List.idxOf_lt_length_of_mem h]
  · simp [push]

theorem resolve?_intern_of_some {t : SymbolTable} {x : Symbol} {n : String}
    (h : t.resolve? x = some n) (s : String) : (t.intern s).2.resolve? x = some n := by
  unfold intern
  split
  · exact h
  · obtain ⟨hlt, -⟩ := List.getElem?_eq_some_iff.1 h
    unfold resolve? at h ⊢
    simp only [push]
    rwa [List.getElem?_append_left hlt]

theorem resolve?_inj {t : SymbolTable} {x y : Symbol} {n : String}
    (hx : t.resolve? x = some n) (hy : t.resolve? y = some n) : x = y := by
  obtain ⟨hlx, -⟩ := List.getElem?_eq_some_iff.1 hx
  have := (List.getElem?_inj hlx t.nodup).1 (hx.trans hy.symm)
  cases x; cases y; simp_all

/-- A table as it appears in diagnostics, which never show its names. -/
def debugText (_ : SymbolTable) : String :=
  "Interner \x7b .. \x7d"

end SymbolTable

end CoverageFlow
