import XdpCollectives.Csv.Basic
import Mathlib.Algebra.Group.Nat.Defs

open Csv

-- Numbers and their texts.
namespace Benchmark

-- A finite one is `mantissa` times 2 to the power of `exponent`.
inductive Double
  | nan
  | inf (negative : Bool)
  | finite (negative : Bool) (mantissa : Nat) (exponent : Int)
  deriving DecidableEq, Repr

-- The quotient that is closer, and the even one of two that are equally close.
def roundHalfEven (n d : Nat) : Nat :=
  let q := n / d
  let r := n % d
  if 2 * r < d then q else if d < 2 * r then q + 1 else q + q % 2

def sign (negative : Bool) : Text :=
  if negative then ['-'] else []

def decimals : Nat := 15

-- A number in units of its last decimal.
def scaled (mantissa : Nat) : (exponent : Int) → Nat
  | .ofNat e   => mantissa * 2 ^ e * 10 ^ decimals
  | .negSucc e => roundHalfEven (mantissa * 10 ^ decimals) (2 ^ (e + 1))

-- format(x, ".15f")
def formatFixed : Double → Text
  | .nan          => ['n', 'a', 'n']
  | .inf negative => sign negative ++ ['i', 'n', 'f']
  | .finite negative mantissa exponent =>
    let n := scaled mantissa exponent
    sign negative ++ Nat.toDigits 10 (n / 10 ^ decimals) ++
      '.' :: (Nat.toDigits 10 (n % 10 ^ decimals)).leftpad decimals '0'

-- str(n)
def str : Int → Text
  | .ofNat n   => Nat.toDigits 10 n
  | .negSucc n => '-' :: Nat.toDigits 10 (n + 1)

def rstrip (c : Char) (t : Text) : Text :=
  t.rdropWhile (· = c)

-- What a cell of the matrix of results holds.
inductive Value
  | str (t : Text)
  | int (n : Int)
  | float (x : Double)

def formatCsvValue : Value → Text
  | .str t   => t
  | .int n   => str n
  | .float x =>
    let text := rstrip '.' (rstrip '0' (formatFixed x))
    if text = [] then ['0'] else text

-- Digits, with single underscores between them.
def digitPart : Text → Bool
  | []           => false
  | [c]          => c.isDigit
  | c :: '_' :: t => c.isDigit && digitPart t
  | c :: t       => c.isDigit && digitPart t

def pointFloat (t : Text) : Bool :=
  let whole := t.takeWhile (· ≠ '.')
  match t.dropWhile (· ≠ '.') with
  | []            => digitPart whole
  | _ :: fraction =>
    (whole.isEmpty || digitPart whole) && (fraction.isEmpty || digitPart fraction) &&
      !(whole.isEmpty && fraction.isEmpty)

def unsigned : Text → Text
  | '+' :: t => t
  | '-' :: t => t
  | t        => t

-- The texts that `float` converts, among those in ASCII. It raises a ValueError on the others.
def isFloat (t : Text) : Bool :=
  let t := unsigned ((strip t).map Char.toLower)
  t = ['i', 'n', 'f'] || t = ['i', 'n', 'f', 'i', 'n', 'i', 't', 'y'] || t = ['n', 'a', 'n'] ||
    match t.dropWhile (· ≠ 'e') with
    | []            => pointFloat t
    | _ :: exponent => pointFloat (t.takeWhile (· ≠ 'e')) && digitPart (unsigned exponent)

end Benchmark
