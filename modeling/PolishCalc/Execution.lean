/-
What can be observed of a running program: the values it has printed and the variables it has set.

A symbol table maps names to values. It lists its bindings in the order of the names, by code points, and two tables with
the same bindings are equal whatever their history: the entries are an extensional ordered map. Tree evaluation and
machine execution both work on an `Execution`, and their final executions are compared.

- `get_set`: a name that was just set has that value, and every other name has the value it had;
- `contains_iff`: a variable is there if it can be read;
- `ext_get`: tables that answer alike are equal.
-/
import Std.Data.ExtTreeMap
import PolishCalc.RuntimeError

namespace PolishCalc

/-! ## Variables -/

/-- the value of each variable that has one -/
structure SymbolTable where
  entries : Std.ExtTreeMap String Int32
deriving DecidableEq

namespace SymbolTable

def empty : SymbolTable := ⟨∅⟩

/-- the value of a variable, an error when it has none -/
def get (t : SymbolTable) (name : String) : Except RuntimeError Int32 :=
  match t.entries[name]? with
  | some v => .ok v
  | none => .error (.uninitialized name)

/-- gives a variable a value in place of the one it had -/
def set (t : SymbolTable) (name : String) (v : Int32) : SymbolTable := ⟨t.entries.insert name v⟩

def contains (t : SymbolTable) (name : String) : Bool := t.entries.contains name

def size (t : SymbolTable) : Nat := t.entries.size

def isEmpty (t : SymbolTable) : Bool := t.entries.isEmpty

/-- the bindings, by name -/
def toList (t : SymbolTable) : List (String × Int32) := t.entries.toList

/-- the table after setting each binding in turn -/
def ofList (l : List (String × Int32)) : SymbolTable := l.foldl (fun t b => t.set b.1 b.2) empty

/-- one line for each binding -/
def display (t : SymbolTable) : String :=
  String.join (t.toList.map fun b => b.1 ++ ": " ++ Decimal.ofInt32 b.2 ++ "\n")

theorem get_empty (x : String) : empty.get x = .error (.uninitialized x) := by
  simp [get, empty]

theorem get_set (t : SymbolTable) (name x : String) (v : Int32) :
    (t.set name v).get x = if name = x then .ok v else t.get x := by
  simp only [get, set, Std.ExtTreeMap.getElem?_insert, Std.LawfulEqCmp.compare_eq_iff_eq]
  by_cases h : name = x <;> simp [h]

/-- a variable can only be missing -/
theorem get_eq_error (t : SymbolTable) (name : String) (e : RuntimeError) (h : t.get name = .error e) :
    e = .uninitialized name := by
  simp only [get] at h
  split at h
  · cases h
  · cases h
    rfl

theorem contains_iff (t : SymbolTable) (x : String) : t.contains x = true ↔ ∃ v, t.get x = .ok v := by
  simp only [contains, get, Std.ExtTreeMap.contains_eq_isSome_getElem?]
  split
  · next v hv => simp [hv]
  · next hv => simp [hv]

theorem contains_empty (x : String) : empty.contains x = false := by
  simp [contains, empty]

theorem contains_set (t : SymbolTable) (name x : String) (v : Int32) :
    (t.set name v).contains x = true ↔ name = x ∨ t.contains x = true := by
  rw [contains_iff, contains_iff, get_set]
  by_cases h : name = x <;> simp [h]

theorem ext_get (t u : SymbolTable) (h : ∀ x, t.get x = u.get x) : t = u := by
  obtain ⟨t⟩ := t
  obtain ⟨u⟩ := u
  congr 1
  refine Std.ExtTreeMap.ext_getElem? fun x => ?_
  have hx := h x
  simp only [get] at hx
  split at hx <;> split at hx <;> simp_all

end SymbolTable

/-! ## Output and variables -/

/-- the values printed, in order, and the variables -/
structure Execution where
  output : Array Int32
  symbols : SymbolTable
deriving DecidableEq

namespace Execution

def empty : Execution := ⟨#[], .empty⟩

def print (s : Execution) (v : Int32) : Execution := { s with output := s.output.push v }

def assign (s : Execution) (name : String) (v : Int32) : Execution := { s with symbols := s.symbols.set name v }

/-- the printed values line by line, then the table of the variables under its title -/
def display (s : Execution) : String :=
  String.join (s.output.toList.map fun v => Decimal.ofInt32 v ++ "\n") ++ "symbol table:\n" ++ s.symbols.display

end Execution

end PolishCalc
