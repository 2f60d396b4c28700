import Mathlib.Logic.Function.Basic
import LearnCLinux.Library.Access

/-! `learn_c/quick_sort.c`.  The scans have no bound, so the loops are followed for as many rounds
as there is fuel, and every cell they touch is noted. -/

namespace LearnCLinux.QuickSort

open Access

abbrev Arr := Int → Int

def intMin : Int := -2147483648

def intMax : Int := 2147483647

/-- The result of an operation on `int`s.  An overflow is a fault. -/
def int {ι : Type} (x : Int) : Access ι Int := if intMin ≤ x ∧ x ≤ intMax then pure x else fail

def read (arr : Arr) (i : Int) : Access Int Int := touch [i] (arr i)

def write (arr : Arr) (i x : Int) : Access Int Arr := touch [i] (Function.update arr i x)

def exchangeValue (arr : Arr) (a b : Int) : Access Int Arr := do
  let temp ← read arr a
  let x ← read arr b
  let arr ← write arr a x
  write arr b temp

def scan (passes : Int → Int → Bool) (d : Int) (arr : Arr) (middle : Int) :
    Nat → Int → Access Int Int
  | 0, _ => fail
  | n + 1, i => do
    let x ← read arr i
    let pivot ← read arr middle
    if passes x pivot then do
      let i ← int (i + d)
      scan passes d arr middle n i
    else pure i

/-- `for(; arr[i] < arr[middle]; i ++){}` -/
def scanUp : Arr → Int → Nat → Int → Access Int Int := scan (fun x pivot => x < pivot) 1

/-- `for(; arr[j] > arr[middle]; j --){}` -/
def scanDown : Arr → Int → Nat → Int → Access Int Int := scan (fun x pivot => x > pivot) (-1)

/-- What is noted of a run: the cells it touches, its calls of `sort`, and what it is about to
exchange, with the array and the call in which it does. -/
inductive Event : Type
  | cell (i : Int)
  | call (left right : Int)
  | exchange (arr : Arr) (left right middle i j : Int)

def exchangeLoop (left right middle : Int) :
    Nat → Arr → Int → Int → Access Event (Arr × Int × Int)
  | 0, _, _, _ => fail
  | n + 1, arr, i, j =>
    if i ≤ j then do
      let i ← (scanUp arr middle n i).note .cell
      let j ← (scanDown arr middle n j).note .cell
      if i ≤ j then do
        touch [.exchange arr left right middle i j] ()
        let arr ← (exchangeValue arr i j).note .cell
        let i ← int (i + 1)
        let j ← int (j - 1)
        exchangeLoop left right middle n arr i j
      else exchangeLoop left right middle n arr i j
    else pure (arr, i, j)

/-- `sort`, where `add` is the addition that finds the middle. -/
def sortWith (add : Int → Int → Access Event Int) : Nat → Arr → Int → Int → Access Event Arr
  | 0, _, _, _ => fail
  | n + 1, arr, left, right => do
    touch [.call left right] ()
    let sum ← add left right
    let (arr, i, j) ← exchangeLoop left right (sum.tdiv 2) n arr left right
    let arr ← if left < j then sortWith add n arr left j else pure arr
    if i < right then sortWith add n arr i right else pure arr

def sort : Nat → Arr → Int → Int → Access Event Arr :=
  sortWith fun left right => int (left + right)

/-- `sort` as it would run if the middle were found without overflow. -/
def sortUnbounded : Nat → Arr → Int → Int → Access Event Arr :=
  sortWith fun left right => pure (left + right)

def arrOf (xs : List Int) : Arr := fun k => xs.getD k.toNat 0

def mainArr : Arr := arrOf [15, 23, 38, 75, 42, 96, 13, 17, 93, 85, 45, 65, 69, 41]

end LearnCLinux.QuickSort
