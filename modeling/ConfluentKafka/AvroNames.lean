import Mathlib.Data.List.Basic
import Mathlib.Data.List.TakeWhile

/-!
# The names of the Avro specification

A name with dots is a full name. Another name is in a namespace, the one that is given with it or else
the one of the definition that encloses it.
-/

namespace ConfluentKafka

namespace Avro

/-- The namespace of a name with dots is what stands before the last one; other names are in the namespace
that is given or else in the enclosing one. -/
def namespaceOf (name : String) (nspace : Option String) (enclosing : String) : String :=
  if '.' ∈ name.toList then String.ofList ((name.toList.reverse.dropWhile (· ≠ '.')).drop 1).reverse
  else nspace.getD enclosing

def fullname (name : String) (nspace : Option String) (enclosing : String) : String :=
  if '.' ∈ name.toList then name
  else if nspace.getD enclosing = "" then name
  else nspace.getD enclosing ++ "." ++ name

def qualify (ns s : String) : String := if ns ≠ "" ∧ '.' ∉ s.toList then ns ++ "." ++ s else s

def EndsWell (name : String) : Prop := name.toList.reverse.takeWhile (· ≠ '.') ≠ []

/-! ## Names with dots -/

theorem takeWhile_dot (front back : List Char) (h : '.' ∉ back) :
    (front ++ '.' :: back).reverse.takeWhile (· ≠ '.') = back.reverse := by
  have hback : ∀ c ∈ back.reverse, decide (c ≠ '.') = true := by
    intro c hc
    exact decide_eq_true fun heq => h (heq ▸ List.mem_reverse.mp hc)
  rw [List.reverse_append, List.reverse_cons, List.append_assoc, List.takeWhile_append_of_pos hback]
  simp

theorem dropWhile_dot (front back : List Char) (h : '.' ∉ back) :
    (front ++ '.' :: back).reverse.dropWhile (· ≠ '.') = '.' :: front.reverse := by
  have hback : ∀ c ∈ back.reverse, decide (c ≠ '.') = true := by
    intro c hc
    exact decide_eq_true fun heq => h (heq ▸ List.mem_reverse.mp hc)
  rw [List.reverse_append, List.reverse_cons, List.append_assoc, List.dropWhile_append_of_pos hback]
  simp

theorem toList_dotted (front back : String) : (front ++ "." ++ back).toList = front.toList ++ '.' ::
    back.toList := by
  simp [String.toList_append]

/-- A name with dots is read in one way as what stands before the last one and what stands after it. -/
theorem dotted_inj {front back front' back' : String} (hback : '.' ∉ back.toList) (hback' : '.' ∉ back'.toList)
    (h : front ++ "." ++ back = front' ++ "." ++ back') : front = front' ∧ back = back' := by
  have hchars : front.toList ++ '.' :: back.toList = front'.toList ++ '.' :: back'.toList := by
    rw [← toList_dotted, ← toList_dotted, h]
  constructor
  · have hdrop := congrArg (fun l : List Char => l.reverse.dropWhile (· ≠ '.')) hchars
    simp only [dropWhile_dot _ _ hback, dropWhile_dot _ _ hback'] at hdrop
    exact String.toList_inj.mp (List.reverse_injective (List.cons.inj hdrop).2)
  · have htake := congrArg (fun l : List Char => l.reverse.takeWhile (· ≠ '.')) hchars
    simp only [takeWhile_dot _ _ hback, takeWhile_dot _ _ hback'] at htake
    exact String.toList_inj.mp (List.reverse_injective htake)

theorem toList_ne_nil_of_endsWell {name : String} (h : EndsWell name) : name.toList ≠ [] := by
  intro hnil
  rw [EndsWell, hnil] at h
  exact h rfl

end Avro

end ConfluentKafka
