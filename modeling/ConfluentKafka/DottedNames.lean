import Mathlib.Data.List.Basic
import Mathlib.Data.List.Infix

/-!
# Names with dots

A scope is the text of its name, with a dot before each part; the outermost scope is empty. A name is looked up
from a scope by cutting it at its last dot, again and again. Where the parts have no dots, this goes through the
scopes that enclose it, the innermost first.
-/

namespace DottedNames

abbrev Text := List Char

def qualify (scope name : Text) : Text := scope ++ '.' :: name

def lastIndexOf (c : Char) : Text → Option Nat
  | [] => none
  | x :: xs =>
    match lastIndexOf c xs with
    | some i => some (i + 1)
    | none => if x = c then some 0 else none

def cut (scope : Text) : Text :=
  match lastIndexOf '.' scope with
  | some i => scope.take i
  | none => []

theorem lastIndexOf_lt {c : Char} {xs : Text} {i : Nat} (h : lastIndexOf c xs = some i) : i < xs.length := by
  induction xs generalizing i with
  | nil => cases h
  | cons x xs ih =>
    rw [lastIndexOf] at h
    cases hrest : lastIndexOf c xs with
    | some j =>
      rw [hrest] at h
      cases h
      exact Nat.succ_lt_succ (ih hrest)
    | none =>
      rw [hrest] at h
      dsimp only at h
      split_ifs at h
      cases h
      exact Nat.succ_pos _

theorem length_cut_lt {scope : Text} (h : scope ≠ []) : (cut scope).length < scope.length := by
  unfold cut
  split
  · rename_i i hi
    rw [List.length_take_of_le (Nat.le_of_lt (lastIndexOf_lt hi))]
    exact lastIndexOf_lt hi
  · exact List.length_pos_iff.mpr h

def lookup (declared : Text → Bool) (name scope : Text) : Option Text :=
  if scope = [] then none
  else if declared (qualify scope name) then some (qualify scope name)
  else lookup declared name (cut scope)
termination_by scope.length
decreasing_by exact length_cut_lt ‹_›

/-! ## Enclosing scopes -/

def enter (scopes : List Text) (name : Text) : List Text := qualify (scopes.headD []) name :: scopes

inductive Enclosing : List Text → Prop where
  | outermost : Enclosing [[]]
  | enter {scopes : List Text} {name : Text} (h : Enclosing scopes) (hname : '.' ∉ name) : Enclosing
    (enter scopes name)

theorem lastIndexOf_eq_none {c : Char} {xs : Text} (h : c ∉ xs) : lastIndexOf c xs = none := by
  induction xs with
  | nil => rfl
  | cons x xs ih =>
    rw [List.mem_cons, not_or] at h
    rw [lastIndexOf, ih h.2]
    exact if_neg (Ne.symm h.1)

theorem lastIndexOf_append {c : Char} (xs : Text) {ys : Text} (h : c ∉ ys) : lastIndexOf c (xs ++ c :: ys) =
    some xs.length := by
  induction xs with
  | nil =>
    rw [List.nil_append, lastIndexOf, lastIndexOf_eq_none h]
    exact if_pos rfl
  | cons x xs ih => rw [List.cons_append, lastIndexOf, ih, List.length_cons]

theorem cut_qualify (scope : Text) {name : Text} (h : '.' ∉ name) : cut (qualify scope name) = scope := by
  rw [cut, qualify, lastIndexOf_append scope h]
  exact List.take_left

theorem qualify_ne_nil (scope name : Text) : qualify scope name ≠ [] := List.append_ne_nil_of_right_ne_nil scope
    (List.cons_ne_nil _ _)

/-- The lookup finds the name in the innermost scope that has it. -/
theorem lookup_eq (declared : Text → Bool) (name : Text) {scopes : List Text} (h : Enclosing scopes) :
    (lookup declared name (scopes.headD [])).or (if declared (qualify [] name) then some
      (qualify [] name) else none) =
      (scopes.map fun scope => qualify scope name).find? declared := by
  induction h with
  | outermost =>
    have hroot : lookup declared name [] = none := by rw [lookup, if_pos rfl]
    rw [List.headD_cons, hroot, Option.none_or, List.map_cons, List.map_nil, List.find?_cons]
    cases declared (qualify [] name) with
    | true => rfl
    | false => rfl
  | @enter scopes part _ hpart ih =>
    rw [DottedNames.enter, List.headD_cons, List.map_cons, List.find?_cons, lookup, if_neg (qualify_ne_nil _ _),
      cut_qualify _ hpart]
    cases declared (qualify (qualify (scopes.headD []) part) name) with
    | true => rfl
    | false => exact ih

def Absolute (scope : Text) : Prop := scope = [] ∨ scope.head? = some '.'

theorem head?_qualify {scope : Text} (h : Absolute scope) (name : Text) : (qualify scope name).head? =
    some '.' := by
  obtain rfl | h := h
  · rfl
  · rw [qualify, List.head?_append, h, Option.some_or]

theorem absolute_qualify {scope : Text} (h : Absolute scope) (name : Text) : Absolute (qualify scope name) :=
  .inr (head?_qualify h name)

theorem absolute_cut {scope : Text} (h : Absolute scope) : Absolute (cut scope) := by
  unfold cut
  split
  · rename_i i _
    cases i with
    | zero => exact .inl (List.take_zero)
    | succ i =>
      obtain rfl | h := h
      · exact .inl (List.take_nil)
      · exact .inr (by rw [List.head?_take, if_neg (Nat.succ_ne_zero i), h])
  · exact .inl rfl

theorem head?_of_lookup {declared : Text → Bool} {name scope found : Text} (hscope : Absolute scope)
    (h : lookup declared name scope = some found) : found.head? = some '.' := by
  induction hn : scope.length using Nat.strong_induction_on generalizing scope with
  | _ n ih =>
    rw [lookup] at h
    split_ifs at h with hempty hdeclared
    · cases h
      exact head?_qualify hscope name
    · exact ih _ (hn ▸ length_cut_lt hempty) (absolute_cut hscope) h rfl

/-! ## Scopes of a dotted name -/

def scopesOf (name : Text) : List Text := if name = [] then [[]] else (name.splitOn '.').foldl enter [[]]

theorem splitOn_cons_of_ne {c : Char} (hc : c ≠ '.') (name : Text) :
    ∃ part parts, name.splitOn '.' = part :: parts ∧ (c :: name).splitOn '.' = (c :: part) :: parts := by
  obtain ⟨part, parts, hsplit⟩ := List.exists_cons_of_ne_nil (List.splitOn_ne_nil '.' name)
  refine ⟨part, parts, hsplit, ?_⟩
  rw [List.splitOn_cons_eq_if_modifyHead, if_neg (by simpa using hc), hsplit]
  rfl

theorem splitOn_cons_self (name : Text) : ('.' :: name).splitOn '.' = [] :: name.splitOn '.' := by
  rw [List.splitOn_cons_eq_if_modifyHead]
  exact if_pos rfl

theorem not_mem_of_mem_splitOn {name part : Text} (h : part ∈ name.splitOn '.') : '.' ∉ part := by
  induction name generalizing part with
  | nil =>
    rw [List.splitOn_nil, List.mem_singleton] at h
    rw [h]
    exact List.not_mem_nil
  | cons c name ih =>
    by_cases hc : c = '.'
    · rw [hc, splitOn_cons_self, List.mem_cons] at h
      obtain rfl | h := h
      · exact List.not_mem_nil
      · exact ih h
    · obtain ⟨first, parts, hsplit, hcons⟩ := splitOn_cons_of_ne hc name
      rw [hcons, List.mem_cons] at h
      obtain rfl | h := h
      · rw [List.mem_cons, not_or]
        exact ⟨Ne.symm hc, ih (by rw [hsplit]; exact List.mem_cons_self)⟩
      · exact ih (by rw [hsplit]; exact List.mem_cons_of_mem _ h)

theorem flatMap_splitOn (name : Text) : ((name.splitOn '.').flatMap fun part => '.' :: part) = '.' :: name := by
  induction name with
  | nil => rfl
  | cons c name ih =>
    by_cases hc : c = '.'
    · rw [hc, splitOn_cons_self, List.flatMap_cons, ih]
      rfl
    · obtain ⟨first, parts, hsplit, hcons⟩ := splitOn_cons_of_ne hc name
      rw [hsplit, List.flatMap_cons, List.cons_append] at ih
      rw [hcons, List.flatMap_cons, List.cons_append, List.cons_append, List.tail_eq_of_cons_eq ih]

theorem enclosing_foldl {parts : List Text} (hparts : ∀ part ∈ parts, '.' ∉ part) {scopes : List Text}
    (h : Enclosing scopes) :
    Enclosing (parts.foldl enter scopes) := by
  induction parts generalizing scopes with
  | nil => exact h
  | cons part parts ih =>
    exact ih (fun p hp => hparts p (List.mem_cons_of_mem _ hp)) (h.enter (hparts part List.mem_cons_self))

theorem enclosing_scopesOf (name : Text) : Enclosing (scopesOf name) := by
  unfold scopesOf
  split_ifs
  · exact .outermost
  · exact enclosing_foldl (fun _ => not_mem_of_mem_splitOn) .outermost

theorem headD_foldl_enter (parts : List Text) (scopes : List Text) :
    (parts.foldl enter scopes).headD [] = scopes.headD [] ++ parts.flatMap fun part => '.' :: part := by
  induction parts generalizing scopes with
  | nil => exact (List.append_nil _).symm
  | cons part parts ih =>
    rw [List.foldl_cons, ih, enter, List.headD_cons, qualify, List.flatMap_cons, List.append_assoc]

theorem headD_scopesOf (name : Text) : (scopesOf name).headD [] = if name = [] then [] else '.' :: name := by
  unfold scopesOf
  split_ifs
  · rfl
  · rw [headD_foldl_enter, flatMap_splitOn]
    rfl

end DottedNames
