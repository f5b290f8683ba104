import ConfluentKafka.GreedyMatch
import ConfluentKafka.JsonText

/-!
# Regular expressions

`RegExp` without flags, as far as the expressions go that wildcards are translated to: a quantifier stands
behind a single character, greedy and without braces, and no group begins with a question mark. The text is
made to tokens and these to a tree, which is matched by backtracking.
-/

namespace ConfluentKafka

namespace RegExp

open Json (isDigit hexDigit)

abbrev CharSet := UInt16 → Bool

/-! ## Tokens -/

inductive Assertion where
  | start
  | finish
  | wordBoundary
  | notWordBoundary

inductive Quantifier where
  | star
  | plus
  | optional

inductive Token where
  | set (p : CharSet)
  | quantifier (q : Quantifier)
  | assertion (a : Assertion)
  | backreference (n : Nat)
  | openGroup
  | closeGroup
  | bar

def only (c : UInt16) : CharSet := fun d => d = c

def isLineTerminator (c : UInt16) : Bool := c = 10 ∨ c = 13 ∨ c = 0x2028 ∨ c = 0x2029

def isAsciiLetter (c : UInt16) : Bool := 65 ≤ c.toNat ∧ c.toNat ≤ 90 ∨ 97 ≤ c.toNat ∧ c.toNat ≤ 122

def isWordChar (c : UInt16) : Bool := isAsciiLetter c || isDigit c || c = unit '_'

def isWhiteSpace (c : UInt16) : Bool :=
  9 ≤ c.toNat ∧ c.toNat ≤ 13 ∨ c = 0x20 ∨ c = 0xA0 ∨ c = 0x1680 ∨ 0x2000 ≤ c.toNat ∧ c.toNat ≤ 0x200A ∨
    c = 0x2028 ∨ c = 0x2029 ∨
    c = 0x202F ∨ c = 0x205F ∨ c = 0x3000 ∨ c = 0xFEFF

def isOctalDigit (c : UInt16) : Bool := 48 ≤ c.toNat ∧ c.toNat ≤ 55

/-- Up to three octal digits, and two where three would go beyond a byte. -/
def legacyOctal (first : Nat) : JsString → UInt16 × JsString
  | [] => (UInt16.ofNat first, [])
  | c :: s =>
    if isOctalDigit c then
      match s with
      | [] => (UInt16.ofNat (8 * first + (c.toNat - 48)), [])
      | d :: s' =>
        if isOctalDigit d ∧ first ≤ 3 then (UInt16.ofNat (64 * first + 8 * (c.toNat - 48) + (d.toNat - 48)), s')
        else (UInt16.ofNat (8 * first + (c.toNat - 48)), d :: s')
    else (UInt16.ofNat first, c :: s)

def hexValue (digits : JsString) : Option Nat :=
  digits.foldlM (fun n c => (hexDigit c).map fun d => 16 * n + d) 0

/-- A letter behind `c`; without one the backslash stands for itself. -/
def controlEscape (c : UInt16) : JsString → UInt16 × JsString
  | [] => (unit '\\', [c])
  | d :: s => if isAsciiLetter d then (d % 32, s) else (unit '\\', c :: d :: s)

/-- So many hexadecimal digits; without them the letter stands for itself. -/
def hexEscape (width : Nat) (c : UInt16) (s : JsString) : UInt16 × JsString :=
  match hexValue (s.take width) with
  | none => (c, s)
  | some n => if s.length < width then (c, s) else (UInt16.ofNat n, s.drop width)

/-- The character behind a backslash; where the escape is none of the grammar it stands for itself. -/
def characterEscape (c : UInt16) (s : JsString) : UInt16 × JsString :=
  if c = unit 'f' then (12, s)
  else if c = unit 'n' then (10, s)
  else if c = unit 'r' then (13, s)
  else if c = unit 't' then (9, s)
  else if c = unit 'v' then (11, s)
  else if c = unit 'c' then controlEscape c s
  else if c = unit 'x' then hexEscape 2 c s
  else if c = unit 'u' then hexEscape 4 c s
  else if isOctalDigit c then legacyOctal (c.toNat - 48) s
  else (c, s)

def characterClassEscape (c : UInt16) : Option CharSet :=
  if c = unit 'd' then some isDigit
  else if c = unit 'D' then some fun d => !isDigit d
  else if c = unit 's' then some isWhiteSpace
  else if c = unit 'S' then some fun d => !isWhiteSpace d
  else if c = unit 'w' then some isWordChar
  else if c = unit 'W' then some fun d => !isWordChar d
  else none

/-! ## Classes -/

inductive ClassAtom where
  | char (c : UInt16)
  | set (p : CharSet)

def ClassAtom.toSet : ClassAtom → CharSet
  | char c => only c
  | set p => p

def classEscape (c : UInt16) (s : JsString) : ClassAtom × JsString :=
  match characterClassEscape c with
  | some p => (.set p, s)
  | none =>
    if c = unit 'b' then (.char 8, s)
    else
      match s with
      | d :: s' =>
        if c = unit 'c' ∧ (isDigit d ∨ d = unit '_') then (.char (d % 32), s')
        else (.char (characterEscape c s).1, (characterEscape c s).2)
      | [] => (.char (characterEscape c s).1, (characterEscape c s).2)

def classAtom : JsString → Option (ClassAtom × JsString)
  | [] => none
  | c :: s =>
    if c = unit '\\' then
      match s with
      | [] => none
      | d :: s' => some (classEscape d s')
    else some (.char c, s)

/-- A range between characters; where an end is a set the dash stands for itself. -/
def classRange : ClassAtom → ClassAtom → Option CharSet
  | .char lo, .char hi => if hi < lo then none else some fun d => lo ≤ d ∧ d ≤ hi
  | a, b => some fun d => a.toSet d || b.toSet d || d = unit '-'

def classRanges : Nat → CharSet → JsString → Option (CharSet × JsString)
  | 0, _, _ => none
  | _ + 1, _, [] => none
  | fuel + 1, p, c :: s =>
    if c = unit ']' then some (p, s)
    else do
      let (a, s₁) ← classAtom (c :: s)
      match s₁ with
      | [] => none
      | d :: s₂ =>
        if d = unit '-' ∧ s₂.head? ≠ some (unit ']') then do
          let (b, s₃) ← classAtom s₂
          let range ← classRange a b
          classRanges fuel (fun d => p d || range d) s₃
        else classRanges fuel (fun d => p d || a.toSet d) s₁

def characterClass (s : JsString) : Option (CharSet × JsString) :=
  if s.head? = some (unit '^') then do
    let (p, s) ← classRanges s.length (fun _ => false) s.tail
    return (fun d => !p d, s)
  else classRanges s.length (fun _ => false) s

/-! ## The text -/

/-- A number is a reference to a group only where there are so many groups. -/
def atomEscape (groups : Nat) (c : UInt16) (s : JsString) : Token × JsString :=
  if c = unit 'b' then (.assertion .wordBoundary, s)
  else if c = unit 'B' then (.assertion .notWordBoundary, s)
  else
    match characterClassEscape c with
    | some p => (.set p, s)
    | none =>
      let digits := (c :: s).takeWhile isDigit
      let n := digits.foldl (fun n d => 10 * n + (d.toNat - 48)) 0
      if isDigit c ∧ c ≠ unit '0' ∧ n ≤ groups then (.backreference n, (c :: s).drop digits.length)
      else (.set (only (characterEscape c s).1), (characterEscape c s).2)

def lexOne (groups : Nat) (c : UInt16) (s : JsString) : Option (Token × JsString) :=
  if c = unit '\\' then
    match s with
    | [] => none
    | d :: s' => some (atomEscape groups d s')
  else if c = unit '[' then (characterClass s).map fun r => (.set r.1, r.2)
  else if c = unit '.' then some (.set fun d => !isLineTerminator d, s)
  else if c = unit '*' then some (.quantifier .star, s)
  else if c = unit '+' then some (.quantifier .plus, s)
  else if c = unit '?' then some (.quantifier .optional, s)
  else if c = unit '^' then some (.assertion .start, s)
  else if c = unit '$' then some (.assertion .finish, s)
  else if c = unit '(' then some (.openGroup, s)
  else if c = unit ')' then some (.closeGroup, s)
  else if c = unit '|' then some (.bar, s)
  else some (.set (only c), s)

def lex (groups : Nat) : Nat → JsString → Option (List Token)
  | _, [] => some []
  | 0, _ :: _ => none
  | fuel + 1, c :: s => do
    let (t, s') ← lexOne groups c s
    let ts ← lex groups fuel s'
    return t :: ts

def countGroups : Bool → JsString → Nat
  | _, [] => 0
  | _, [_] => 0
  | inClass, c :: d :: s =>
    if c = unit '\\' then countGroups inClass s
    else if inClass then countGroups (c ≠ unit ']') (d :: s)
    else (if c = unit '(' then 1 else 0) + countGroups (c = unit '[') (d :: s)

/-! ## The tree -/

inductive Node where
  | empty
  | set (p : CharSet)
  | quantified (p : CharSet) (q : Quantifier)
  | assertion (a : Assertion)
  | backreference (n : Nat)
  | seq (a b : Node)
  | alt (a b : Node)
  | group (n : Nat) (a : Node)

/-- What is read of a group: the alternatives before the last bar and the terms behind it. -/
structure Frame where
  alternatives : Option Node := none
  terms : Node := .empty

namespace Frame

def node (f : Frame) : Node :=
  match f.alternatives with
  | none => f.terms
  | some a => .alt a f.terms

def push (f : Frame) (a : Node) : Frame := { f with terms := .seq f.terms a }

end Frame

/-- The groups are numbered as they open; those that are still open are on the stack. -/
def parse : Nat → Frame → List (Nat × Frame) → List Token → Option Node
  | _, f, stack, [] => if stack.isEmpty then some f.node else none
  | n, f, stack, .set p :: .quantifier q :: ts => parse n (f.push (.quantified p q)) stack ts
  | n, f, stack, .set p :: ts => parse n (f.push (.set p)) stack ts
  | _, _, _, .quantifier _ :: _ => none
  | n, f, stack, .assertion a :: ts => parse n (f.push (.assertion a)) stack ts
  | n, f, stack, .backreference m :: ts => parse n (f.push (.backreference m)) stack ts
  | n, f, stack, .openGroup :: ts => parse (n + 1) {} ((n + 1, f) :: stack) ts
  | _, _, [], .closeGroup :: _ => none
  | n, f, (m, outer) :: stack, .closeGroup :: ts => parse n (outer.push (.group m f.node)) stack ts
  | n, f, stack, .bar :: ts => parse n { alternatives := some f.node } stack ts

/-- `new RegExp(text)`, which is nothing where the text is no expression. -/
def compile (text : JsString) : Option Node := do
  let tokens ← lex (countGroups false text) text.length text
  parse 0 {} [] tokens

/-! ## Matching -/

structure State where
  before : JsString
  rest : JsString
  captures : Nat → Option JsString := fun _ => none

namespace State

def advance (x : State) : State :=
  match x.rest with
  | [] => x
  | c :: s => { x with before := c :: x.before, rest := s }

theorem rest_advance {x : State} {c : UInt16} {s : JsString} (h : x.rest = c :: s) : x.advance.rest = s := by
  rw [advance, h]

def cursor : GreedyMatch.Cursor State UInt16 where
  rest := State.rest
  advance := advance
  rest_advance := rest_advance

def skip : Nat → State → State
  | 0, x => x
  | n + 1, x => skip n x.advance

def atWordBoundary (x : State) : Bool := (x.before.head?.any isWordChar) != (x.rest.head?.any isWordChar)

def satisfies (x : State) : Assertion → Bool
  | .start => x.before.isEmpty
  | .finish => x.rest.isEmpty
  | .wordBoundary => x.atWordBoundary
  | .notWordBoundary => !x.atWordBoundary

def capture (x : State) (n : Nat) (text : JsString) : State :=
  { x with captures := fun m => if m = n then some text else x.captures m }

end State

def Quantifier.match (p : CharSet) (k : State → Option State) : Quantifier → State → Option State
  | .star, x => State.cursor.matchStar p k x.rest x
  | .plus, x => State.cursor.matchOne p (fun y => State.cursor.matchStar p k y.rest y) x
  | .optional, x => (State.cursor.matchOne p k x).or (k x)

def Node.match : Node → (State → Option State) → State → Option State
  | .empty, k, x => k x
  | .set p, k, x => State.cursor.matchOne p k x
  | .quantified p q, k, x => q.match p k x
  | .assertion a, k, x => if x.satisfies a then k x else none
  | .backreference n, k, x =>
    let text := (x.captures n).getD []
    if text.isPrefixOf x.rest then k (x.skip text.length) else none
  | .seq a b, k, x => a.match (fun y => b.match k y) x
  | .alt a b, k, x => (a.match k x).or (b.match k x)
  | .group n a, k, x => a.match (fun y => k (y.capture n (x.rest.take (x.rest.length - y.rest.length)))) x

def execFrom (node : Node) (before : JsString) : JsString → Option JsString
  | [] => (node.match some ⟨before, [], fun _ => none⟩).map fun _ => []
  | c :: s =>
    match node.match some ⟨before, c :: s, fun _ => none⟩ with
    | some y => some ((c :: s).take ((c :: s).length - y.rest.length))
    | none => execFrom node (c :: before) s

/-- `str.match(pattern)[0]`. -/
def exec (node : Node) (str : JsString) : Option JsString := execFrom node [] str

/-! ## Sets and starred sets in a row -/

open GreedyMatch

def itemTokens : Item UInt16 → List Token
  | .one p => [.set p]
  | .star p => [.set p, .quantifier .star]

def itemNode : Item UInt16 → Node
  | .one p => .set p
  | .star p => .quantified p .star

def itemsFrame (f : Frame) (items : List (Item UInt16)) : Frame :=
  items.foldl (fun f item => f.push (itemNode item)) f

theorem parse_items {items : List (Item UInt16)} : ∀ (n : Nat) (f : Frame),
    parse n f [] (items.flatMap itemTokens) = some (itemsFrame f items).node := by
  induction items with
  | nil => exact fun _ _ => rfl
  | cons item items ih =>
    intro n f
    have hrest := ih n (f.push (itemNode item))
    rw [List.flatMap_cons]
    cases item with
    | star p => exact hrest
    | one p =>
      -- the next token is no quantifier
      cases items with
      | nil => exact hrest
      | cons item' items =>
        cases item' with
        | star => exact hrest
        | one => exact hrest

theorem itemsFrame_alternatives {items : List (Item UInt16)} : ∀ {f : Frame}, f.alternatives = none →
    (itemsFrame f items).alternatives = none := by
  induction items with
  | nil => exact fun h => h
  | cons item items ih => exact fun h => ih h

theorem match_itemsFrame {items : List (Item UInt16)} : ∀ (f : Frame) (k : State → Option State) (x : State),
    (itemsFrame f items).terms.match k x = f.terms.match (State.cursor.matchItems items k) x := by
  induction items with
  | nil => exact fun _ _ _ => rfl
  | cons item items ih =>
    intro f k x
    have hrest := ih (f.push (itemNode item)) k x
    rw [itemsFrame, List.foldl_cons]
    refine hrest.trans ?_
    cases item with
    | one p => rfl
    | star p => rfl

theorem match_items (items : List (Item UInt16)) (k : State → Option State) (x : State) :
    (itemsFrame {} items).node.match k x = State.cursor.matchItems items k x := by
  rw [Frame.node, itemsFrame_alternatives rfl]
  exact match_itemsFrame {} k x

theorem execFrom_length {node : Node} {t : JsString} : ∀ {s before : JsString}, execFrom node before s = some t →
    t.length ≤ s.length := by
  intro s
  induction s with
  | nil =>
    intro before h
    obtain ⟨_, -, rfl⟩ := Option.map_eq_some_iff.mp h
    exact Nat.le_refl _
  | cons c s ih =>
    intro before h
    rw [execFrom] at h
    split at h
    · obtain rfl := Option.some.inj h
      rw [List.length_take]
      exact Nat.min_le_right _ _
    · exact Nat.le_succ_of_le (ih h)

/-- The first match of such an expression is the whole text exactly where the text is in its language. -/
theorem exec_items (items : List (Item UInt16)) (s : JsString) :
    exec (itemsFrame {} items).node s = some s ↔ InLang items s := by
  have hmatch (x : State) : (itemsFrame {} items).node.match some x = State.cursor.matchItems items some x :=
    match_items items some x
  constructor
  · intro h
    cases s with
    | nil =>
      obtain ⟨y, hy, -⟩ := Option.map_eq_some_iff.mp h
      rw [hmatch] at hy
      obtain ⟨t, z, hrest, ht, -⟩ := GreedyMatch.Cursor.matchItems_sound hy
      rwa [(List.append_eq_nil_iff.mp hrest.symm).1] at ht
    | cons c s =>
      rw [exec, execFrom] at h
      split at h
      · rename_i y hy
        rw [hmatch] at hy
        obtain ⟨t, z, hrest, ht, hz⟩ := GreedyMatch.Cursor.matchItems_sound hy
        obtain rfl := Option.some.inj hz
        have hlen := congrArg List.length (Option.some.inj h)
        have hend : z.rest = [] := by
          rw [List.length_take, List.length_cons] at hlen
          exact List.eq_nil_of_length_eq_zero (by omega)
        have hall : c :: s = t := by
          have hwhole : c :: s = t ++ z.rest := hrest
          rw [hwhole, hend, List.append_nil]
        exact hall ▸ ht
      · exact absurd (execFrom_length h) (Nat.not_le_of_lt (Nat.lt_succ_self _))
  · intro h
    have hin : GreedyMatch.InLang items (State.cursor.rest ⟨[], s, fun _ => none⟩) := h
    obtain ⟨y, hy, hend⟩ := GreedyMatch.Cursor.matchItems_whole hin
    have hend' : y.rest = [] := hend
    rw [← hmatch] at hy
    cases s with
    | nil => rw [exec, execFrom, hy]; rfl
    | cons c s =>
      rw [exec, execFrom, hy]
      dsimp only
      rw [hend', List.length_nil, Nat.sub_zero, List.take_length]

/-! ## The fuel -/

theorem lex_succ {groups n : Nat} {ts : List Token} : ∀ {s : JsString}, lex groups n s = some ts →
    lex groups (n + 1) s = some ts := by
  induction n generalizing ts with
  | zero =>
    intro s h
    cases s with
    | nil => exact h
    | cons c s => cases h
  | succ n ih =>
    intro s h
    cases s with
    | nil => exact h
    | cons c s =>
      rw [lex] at h ⊢
      obtain ⟨⟨t, s'⟩, hone, h⟩ := Option.bind_eq_some_iff.mp h
      obtain ⟨ts', hrest, h⟩ := Option.bind_eq_some_iff.mp h
      exact Option.bind_eq_some_iff.mpr ⟨(t, s'), hone, Option.bind_eq_some_iff.mpr ⟨ts', ih hrest, h⟩⟩

theorem lex_add {groups n : Nat} {ts : List Token} {s : JsString} (h : lex groups n s = some ts) (m : Nat) :
    lex groups (n + m) s = some ts := by
  induction m with
  | zero => exact h
  | succ m ih => exact lex_succ ih

def Reads (groups : Nat) (text : JsString) (ts : List Token) : Prop :=
  ∀ n s, lex groups (n + ts.length) (text ++ s) = (lex groups n s).map (ts ++ ·)

theorem reads_one {groups : Nat} {c : UInt16} {text : JsString} {t : Token}
    (h : ∀ s, lexOne groups c (text ++ s) = some (t, s)) :
    Reads groups (c :: text) [t] := by
  intro n s
  rw [List.cons_append, List.length_singleton, lex, h, Option.bind_eq_bind, Option.bind_some]
  dsimp only
  cases lex groups n s with
  | none => rfl
  | some ts => rfl

theorem Reads.append {groups : Nat} {text text' : JsString} {ts ts' : List Token} (h : Reads groups text ts)
    (h' : Reads groups text' ts') : Reads groups (text ++ text') (ts ++ ts') := by
  intro n s
  have hadd : n + (ts ++ ts').length = n + ts'.length + ts.length := by rw [List.length_append]; omega
  rw [List.append_assoc, hadd, h, h']
  cases lex groups n s with
  | none => rfl
  | some => simp

theorem Reads.lex_iff {groups : Nat} {text : JsString} {ts : List Token} (h : Reads groups text ts) {n : Nat}
    {s : JsString}
    {all : List Token} (hlex : lex groups n (text ++ s) = some all) : ∃ ts', lex groups n s = some ts' ∧
      all = ts ++ ts' := by
  have hmore := lex_add hlex ts.length
  rw [h] at hmore
  obtain ⟨ts', hs, hall⟩ := Option.map_eq_some_iff.mp hmore
  exact ⟨ts', hs, hall.symm⟩

end RegExp

end ConfluentKafka
