import ConfluentKafka.JsMap
import Mathlib.Data.List.Sort
import Mathlib.Algebra.GroupWithZero.Nat

/-!
# Plain objects

The own properties of an object made by a literal. Assigning to `__proto__` calls the setter that
every such object inherits and makes no property. Enumeration gives the array indices in ascending
order before the other keys.
-/

namespace ConfluentKafka

structure JsObject (α : Type) where
  own : JsMap String α

namespace JsObject

variable {α : Type}

def empty : JsObject α := ⟨JsMap.empty⟩

def get? (o : JsObject α) (key : String) : Option α := o.own.get? key

def assign (o : JsObject α) (key : String) (value : α) : JsObject α :=
  if key = "__proto__" then o else ⟨o.own.set key value⟩

/-- The number that a key is the decimal text of, without leading zeros, if that is an array index. -/
def arrayIndex? (key : String) : Option Nat :=
  let cs := key.toList
  let n := cs.foldl (fun n c => n * 10 + (c.toNat - 48)) 0
  if cs ≠ [] ∧ cs.all Char.isDigit ∧ (cs.head? = some '0' → cs = ['0']) ∧ n < 2 ^ 32 - 1 then some n else none

def indexLe (e f : String × α) : Prop := (arrayIndex? e.1).getD 0 ≤ (arrayIndex? f.1).getD 0

instance : DecidableRel (indexLe (α := α)) := fun _ _ => inferInstanceAs (Decidable (_ ≤ _))

def entries (o : JsObject α) : List (String × α) :=
  (o.own.entries.filter fun e => (arrayIndex? e.1).isSome).insertionSort indexLe ++
    o.own.entries.filter fun e => !(arrayIndex? e.1).isSome

theorem entries_perm (o : JsObject α) : o.entries.Perm o.own.entries :=
  ((List.perm_insertionSort indexLe _).append_right _).trans (List.filter_append_perm _ _)

theorem mem_entries {o : JsObject α} {key : String} {value : α} :
    (key, value) ∈ o.entries ↔ o.get? key = some value := by
  rw [o.entries_perm.mem_iff, get?, JsMap.get?_eq_some]

theorem nodup_entries (o : JsObject α) : (o.entries.map Prod.fst).Nodup :=
  ((o.entries_perm.map Prod.fst).nodup_iff).mpr o.own.nodup

@[simp] theorem get?_empty (key : String) : (empty : JsObject α).get? key = none := rfl

@[simp] theorem get?_assign (o : JsObject α) (key key' : String) (value : α) :
    (o.assign key value).get? key' = if key' = key ∧ key ≠ "__proto__" then some value else o.get? key' := by
  unfold assign
  by_cases h : key = "__proto__"
  · simp [h]
  · simp [h, get?]

theorem get?_proto_assign (o : JsObject α) (key : String) (value : α) :
    (o.assign key value).get? "__proto__" = o.get? "__proto__" := by
  rw [get?_assign, if_neg fun h => h.2 h.1.symm]

end JsObject

end ConfluentKafka
