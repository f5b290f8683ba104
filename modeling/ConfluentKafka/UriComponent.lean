import ConfluentKafka.Utf8

/-!
# Components of a URI

`encodeURIComponent` writes the UTF-8 bytes of a text, with a percent sign and two digits for all
but the unreserved ones.
-/

namespace ConfluentKafka

namespace UriComponent

def unreserved (n : Nat) : Bool :=
  (65 ≤ n && n ≤ 90) || (97 ≤ n && n ≤ 122) || (48 ≤ n && n ≤ 57) ||
    ['-', '_', '.', '!', '~', '*', '\'', '(', ')'].any fun c => c.toNat = n

def hexDigit (n : Nat) : Char := Char.ofNat (if n < 10 then 48 + n else 55 + n)

def escape (n : Nat) : List Char :=
  if unreserved n then [Char.ofNat n] else ['%', hexDigit (n / 16), hexDigit (n % 16)]

def encode (bs : Bytes) : List Char := bs.flatMap fun b => escape b.toNat

end UriComponent

def encodeURIComponent (s : String) : String := String.ofList (UriComponent.encode (Utf8.encode s.toList))

end ConfluentKafka
