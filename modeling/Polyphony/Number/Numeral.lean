import Polyphony.Number.Exact

/-! # Numerals

The readers of numbers in text. A reader takes the whole of its text and refuses
blanks, signs and digits outside its grammar.
-/
namespace Polyphony.Number

def ofDigits (cs : List Char) : Nat := cs.foldl (fun n c => 10 * n + (c.toNat - 48)) 0

/-- The count of frames, threads or repeats is below this bound, the first that 64 bits do
not hold. -/
def countBound : Nat := 18446744073709551616

def digits? (cs : List Char) : Option Nat :=
  if cs ≠ [] ∧ cs.all Char.isDigit then some (ofDigits cs) else none

/-- A count: digits, with an optional plus, of a value that 64 bits hold. -/
def count? (cs : List Char) : Option Nat :=
  let body := match cs with
    | '+' :: body => body
    | _ => cs
  (digits? body).filter (· < countBound)

/-- The float nearest to `n * 10 ^ e`. Values far beyond the range of floats are
decided by their number of digits. -/
def nearest (n : Nat) (e : Int) : Float :=
  let top := (Nat.toDigits 10 n).length + e
  if n = 0 ∨ top < -330 then 0
  else if 310 < top then 1 / 0
  else Float.ofScientific n (decide (e < 0)) e.natAbs

/-- A sign at the front of a numeral; true stands for minus. -/
def signed : List Char → Bool × List Char
  | '-' :: cs => (true, cs)
  | '+' :: cs => (false, cs)
  | cs => (false, cs)

/-- The exponent part of a decimal, which is zero when it is absent. -/
def exponent? : List Char → Option Int
  | [] => some 0
  | c :: cs =>
    if c = 'e' ∨ c = 'E' then
      let (negative, digits) := signed cs
      (digits? digits).map fun n => if negative then -n else n
    else none

def decimal? (cs : List Char) : Option Float :=
  let whole := cs.takeWhile Char.isDigit
  let rest := cs.dropWhile Char.isDigit
  let (places, rest) := match rest with
    | '.' :: rest => (rest.takeWhile Char.isDigit, rest.dropWhile Char.isDigit)
    | _ => ([], rest)
  if whole = [] ∧ places = [] then none
  else (exponent? rest).map fun e => nearest (ofDigits (whole ++ places)) (e - places.length)

/-- The names of the values that have no digits, in any case. -/
def named? (cs : List Char) : Option Float :=
  let name := cs.map Char.toLower
  if name = ['i', 'n', 'f'] ∨ name = ['i', 'n', 'f', 'i', 'n', 'i', 't', 'y'] then some (1 / 0)
  else if name = ['n', 'a', 'n'] then some (0 / 0)
  else none

def float? (cs : List Char) : Option Float :=
  let (negative, body) := signed cs
  ((named? body).or (decimal? body)).map fun x => if negative then -x else x

/-- A float that is neither infinite nor undefined. -/
def finite? (cs : List Char) : Option Float := (float? cs).filter Float.isFinite

end Polyphony.Number
