import ConfluentKafka.JsonTree

/-!
# JSON texts

`JSON.parse` up to the values of its numbers: the units of a text are made to tokens, and the tokens
to a tree. Both go by one state that each unit and each token changes, so a text may be read in parts.
The grammar is also read with three barewords more, in the places of values.
-/

namespace ConfluentKafka

def unit (c : Char) : UInt16 := UInt16.ofNat c.toNat

def units (s : String) : JsString := s.toList.map unit

namespace Json

/-! ## Tokens -/

inductive Token where
  | lbrace
  | rbrace
  | lbracket
  | rbracket
  | colon
  | comma
  | string (s : JsString)
  | number (text : JsString)
  | true
  | false
  | null
  | nonFinite (index : Fin 3)
  deriving DecidableEq

inductive Phase where
  | minus
  | zero
  | int
  | dot
  | frac
  | e
  | esign
  | exp
  deriving DecidableEq

def isDigit (c : UInt16) : Bool := 48 ≤ c.toNat ∧ c.toNat ≤ 57

def isSpace (c : UInt16) : Bool := c = 9 ∨ c = 10 ∨ c = 13 ∨ c = 32

namespace Phase

def first (c : UInt16) : Option Phase :=
  if c = unit '-' then some .minus
  else if c = unit '0' then some .zero
  else if isDigit c then some .int
  else none

def next (c : UInt16) : Phase → Option Phase
  | .minus => if c = unit '0' then some .zero else if isDigit c then some .int else none
  | .zero => if c = unit '.' then some .dot else if c = unit 'e' ∨ c = unit 'E' then some .e else none
  | .int =>
    if isDigit c then some .int else if c = unit '.' then some .dot
    else if c = unit 'e' ∨ c = unit 'E' then some .e else none
  | .dot => if isDigit c then some .frac else none
  | .frac => if isDigit c then some .frac else if c = unit 'e' ∨ c = unit 'E' then some .e else none
  | .e => if c = unit '+' ∨ c = unit '-' then some .esign else if isDigit c then some .exp else none
  | .esign => if isDigit c then some .exp else none
  | .exp => if isDigit c then some .exp else none

def accepting : Phase → Bool
  | .zero | .int | .frac | .exp => true
  | .minus | .dot | .e | .esign => false

end Phase

inductive LexState where
  | start
  | word (rest : JsString) (t : Token)
  | number (p : Phase) (text : JsString)
  | string (s : JsString)
  | escape (s : JsString)
  | hex (s : JsString) (digits value : Nat)
  deriving DecidableEq

def punctuator (c : UInt16) : Option Token :=
  if c = unit '\x7b' then some .lbrace
  else if c = unit '\x7d' then some .rbrace
  else if c = unit '[' then some .lbracket
  else if c = unit ']' then some .rbracket
  else if c = unit ':' then some .colon
  else if c = unit ',' then some .comma
  else none

instance literals_neZero : NeZero 3 := ⟨by decide⟩

/-- The literals by their first unit; those that are not finite are of the extended grammar. -/
def literal (extended : Bool) (c : UInt16) : Option (JsString × Token) :=
  if c = unit 't' then some (units "rue", .true)
  else if c = unit 'f' then some (units "alse", .false)
  else if c = unit 'n' then some (units "ull", .null)
  else if extended ∧ c = unit 'I' then some (units "nfinity", .nonFinite 1)
  else if extended ∧ c = unit 'N' then some (units "aN", .nonFinite 2)
  else none

def start (extended : Bool) (c : UInt16) : Option (List Token × LexState) :=
  if isSpace c then some ([], .start)
  else match punctuator c with
    | some t => some ([t], .start)
    | none =>
      if c = unit '"' then some ([], .string [])
      else match Phase.first c with
        | some p => some ([], .number p [c])
        | none => (literal extended c).map fun w => ([], .word w.1 w.2)

def simpleEscape (c : UInt16) : Option UInt16 :=
  if c = unit '"' then some (unit '"')
  else if c = unit '\\' then some (unit '\\')
  else if c = unit '/' then some (unit '/')
  else if c = unit 'b' then some 8
  else if c = unit 'f' then some 12
  else if c = unit 'n' then some 10
  else if c = unit 'r' then some 13
  else if c = unit 't' then some 9
  else none

def hexDigit (c : UInt16) : Option Nat :=
  if isDigit c then some (c.toNat - 48)
  else if 65 ≤ c.toNat ∧ c.toNat ≤ 70 then some (c.toNat - 55)
  else if 97 ≤ c.toNat ∧ c.toNat ≤ 102 then some (c.toNat - 87)
  else none

def step (extended : Bool) (c : UInt16) : LexState → Option (List Token × LexState)
  | .start => start extended c
  | .word [] _ => none
  | .word [d] t => if c = d then some ([t], .start) else none
  | .word (d :: rest) t => if c = d then some ([], .word rest t) else none
  | .number p text =>
    match p.next c with
    | some p' => some ([], .number p' (text ++ [c]))
    | none =>
      if p.accepting then (start extended c).map fun r => (.number text :: r.1, r.2)
      else if extended ∧ p = .minus ∧ c = unit 'I' then some ([], .word (units "nfinity") (.nonFinite 0))
      else none
  | .string s =>
    if c = unit '"' then some ([.string s], .start)
    else if c = unit '\\' then some ([], .escape s)
    else if c.toNat < 32 then none
    else some ([], .string (s ++ [c]))
  | .escape s =>
    if c = unit 'u' then some ([], .hex s 4 0) else (simpleEscape c).map fun d => ([], .string (s ++ [d]))
  | .hex s digits value =>
    (hexDigit c).map fun d =>
      if digits = 1 then ([], .string (s ++ [UInt16.ofNat (value * 16 + d)])) else ([], .hex s (digits - 1)
        (value * 16 + d))

def finish : LexState → Option (List Token)
  | .start => some []
  | .number p text => if p.accepting then some [.number text] else none
  | _ => none

def lexFrom (extended : Bool) (st : LexState) : JsString → Option (List Token)
  | [] => finish st
  | c :: s => (step extended c st).bind fun r => (lexFrom extended r.2 s).map fun ts => r.1 ++ ts

def lex (extended : Bool) (s : JsString) : Option (List Token) := lexFrom extended .start s

/-! ## Trees -/

inductive Literal where
  | text (s : JsString)
  | nonFinite (index : Fin 3)
  deriving DecidableEq

abbrev Source := JsonTree Literal

inductive Container where
  | array (elements : List Source)
  | object (fields : List (JsString × Source)) (pending : Option JsString)

inductive Parse where
  | value (stack : List Container)
  | firstElement (stack : List Container)
  | firstKey (stack : List Container)
  | key (stack : List Container)
  | colon (stack : List Container)
  | after (stack : List Container)
  | done (v : Source)

def complete (v : Source) : List Container → Option Parse
  | [] => some (.done v)
  | .array es :: rest => some (.after (.array (es ++ [v]) :: rest))
  | .object fs (some key) :: rest => some (.after (.object (fs ++ [(key, v)]) none :: rest))
  | .object _ none :: _ => none

def Token.scalar : Token → Option Source
  | .string s => some (.string s)
  | .number text => some (.number (.text text))
  | .true => some (.boolean Bool.true)
  | .false => some (.boolean Bool.false)
  | .null => some .null
  | .nonFinite k => some (.number (.nonFinite k))
  | _ => none

def beginValue (stack : List Container) (t : Token) : Option Parse :=
  match t with
  | .lbrace => some (.firstKey (.object [] none :: stack))
  | .lbracket => some (.firstElement (.array [] :: stack))
  | t => t.scalar.bind fun v => complete v stack

def close (stack : List Container) (t : Token) : Option Parse :=
  match stack, t with
  | .array es :: rest, .rbracket => complete (.array es) rest
  | .object fs none :: rest, .rbrace => complete (.object fs) rest
  | _, _ => none

def beginKey (stack : List Container) (t : Token) : Option Parse :=
  match stack, t with
  | .object fs none :: rest, .string key => some (.colon (.object fs (some key) :: rest))
  | _, _ => none

def Parse.step (t : Token) : Parse → Option Parse
  | .value stack => beginValue stack t
  | .firstElement stack => if t = .rbracket then close stack t else beginValue stack t
  | .firstKey stack => if t = .rbrace then close stack t else beginKey stack t
  | .key stack => beginKey stack t
  | .colon stack => if t = .colon then some (.value stack) else none
  | .after stack =>
    if t = .comma then
      match stack with
      | .array _ :: _ => some (.value stack)
      | .object _ _ :: _ => some (.key stack)
      | [] => none
    else close stack t
  | .done _ => none

def parseFrom (p : Parse) : List Token → Option Source
  | [] =>
    match p with
    | .done v => some v
    | _ => none
  | t :: ts => (p.step t).bind fun p' => parseFrom p' ts

def parse (extended : Bool) (s : JsString) : Option Source := (lex extended s).bind (parseFrom (.value []))

end Json

end ConfluentKafka
