import ConfluentKafka.Binary64

/-!
# Arithmetic of doubles

The operators of the language on numbers: the exact result is rounded, and an infinity or NaN goes on
as one.
-/

namespace ConfluentKafka

namespace Double

def ofNat (n : Nat) : Double := toDouble n

def neg : Double → Double
  | finite x => finite (-x)
  | infinite negative => infinite !negative
  | nan => nan

def add : Double → Double → Double
  | finite x, finite y => toDouble (x + y)
  | finite _, infinite negative => infinite negative
  | infinite negative, finite _ => infinite negative
  | infinite negative, infinite negative' => if negative = negative' then infinite negative else nan
  | _, _ => nan

def mul : Double → Double → Double
  | finite x, finite y => toDouble (x * y)
  | finite x, infinite negative => if x = 0 then nan else infinite (negative != decide (x < 0))
  | infinite negative, finite y => if y = 0 then nan else infinite (negative != decide (y < 0))
  | infinite negative, infinite negative' => infinite (negative != negative')
  | _, _ => nan

def half : Double → Double
  | finite x => toDouble (x / 2)
  | infinite negative => infinite negative
  | nan => nan

def hasOdd : Double → Bool
  | finite x => x - 2 * (if 0 ≤ x then ⌊x / 2⌋ else ⌈x / 2⌉) ≠ 0
  | infinite _ => false
  | nan => false

def lt : Double → Double → Bool
  | finite x, finite y => x < y
  | finite _, infinite negative => !negative
  | infinite negative, finite _ => negative
  | infinite negative, infinite negative' => negative && !negative'
  | _, _ => false

def le : Double → Double → Bool
  | finite x, finite y => x ≤ y
  | finite _, infinite negative => !negative
  | infinite negative, finite _ => negative
  | infinite negative, infinite negative' => negative || !negative'
  | _, _ => false

theorem ofNat_eq {n : Nat} (h : n < 2 ^ 53) : ofNat n = finite n := toDouble_natCast h

end Double

end ConfluentKafka
