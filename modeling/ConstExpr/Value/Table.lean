import ConstExpr.Data.Assoc
import ConstExpr.Number.Word

/-!
Arrays are ordered maps from keys to values that remember the next free index: one more than the
largest integer key so far, and zero while there is none that is not negative.
-/

namespace ConstExpr

inductive Key where
  | int (i : Int64)
  | str (s : Bytes)
deriving DecidableEq

structure Table (α : Type) where
  entries : List (Key × α) := []
  nextFree : Int64 := 0

namespace Table

variable {α : Type}

def empty : Table α := {}

def size (t : Table α) : Nat := t.entries.length

def isEmpty (t : Table α) : Bool := t.entries.isEmpty

def get? (t : Table α) (key : Key) : Option α := Assoc.get? t.entries key

def freeAfter (nextFree : Int64) : Key → Int64
  -- a key below the next free index leaves it as it is
  | .int i => if nextFree ≤ i then Word.next i else nextFree
  | .str _ => nextFree

def insert (t : Table α) (key : Key) (a : α) : Table α where
  entries := Assoc.put t.entries key a
  nextFree := freeAfter t.nextFree key

def exchange (t : Table α) (key : Key) (a : α) : Option α × Table α :=
  let (old, entries) := Assoc.exchange t.entries key a
  (old, { entries, nextFree := freeAfter t.nextFree key })

/-- Appends a value under the next free index, unless that index is taken, which is so once the
largest word is a key. -/
def push? (t : Table α) (a : α) : Option (Table α) :=
  if Assoc.has t.entries (.int t.nextFree) then none
  else some { entries := t.entries ++ [(.int t.nextFree, a)], nextFree := Word.next t.nextFree }

def push (t : Table α) (a : α) : Table α := (t.push? a).getD t

def ofList (values : List α) : Table α := values.foldl push empty

def ofEntries (entries : Assoc Key α) : Table α where
  entries := entries
  nextFree := (Assoc.keys entries).foldl freeAfter 0

/-- The entries of the first array, then those of the second under keys the first lacks. -/
def union (t other : Table α) : Table α :=
  other.entries.foldl (fun t (k, a) => if (t.get? k).isSome then t else t.insert k a) t

end Table

end ConstExpr
