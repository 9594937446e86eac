import ConstExpr.Evaluation.Memory

/-!
Array literals and the access to elements.
-/

namespace ConstExpr

namespace Table

def append (t : Table Value) (v : Value) : Logged (Table Value) :=
  match t.push? v with
  | some longer => pure longer
  -- the largest word is a key, and no index comes after it
  | none => do
    Logged.warn .indexOccupied
    return t

def store (t : Table Value) (key v : Value) : Logged (Table Value) :=
  match Key.ofValue? key with
  | some k => pure (t.insert k v)
  | none => do
    Logged.warn .illegalOffset
    return t

/-- Adds entries one after the other: those under integers get new indices, those under strings
keep their keys. -/
def spread (t : Table Value) : List (Key × Value) → Logged (Table Value)
  | [] => pure t
  | (.int _, v) :: rest => do
    let longer ← t.append v
    longer.spread rest
  | (.str s, v) :: rest => (t.insert (.str s) v).spread rest

def unpack (t : Table Value) (source : Value) : Logged (Table Value) :=
  match source with
  | .array s => t.spread s.entries
  | _ => do
    Logged.warn .notUnpackable
    return t

end Table

namespace Value

def byteAt? (s : Bytes) (offset : Int64) : Option UInt8 :=
  -- a negative offset counts from the end
  let index := if offset.toInt < 0 then s.length + offset.toInt else offset.toInt
  if index < 0 then none else s[index.toNat]?

def element (container offset : Value) : Logged Value :=
  match container with
  | array t =>
    match (Key.ofValue? offset).bind t.get? with
    | some v => pure v
    | none => .reject (.undefinedKey offset.display)
  | str s =>
    match byteAt? s offset.toWord with
    | some b => pure (str [b])
    | none => do
      Logged.warn (.uninitializedOffset offset.toWord)
      return str []
  | _ => .reject (.notIndexable container.kind)

end Value

end ConstExpr
