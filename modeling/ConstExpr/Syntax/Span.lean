/-!
Source positions: byte offsets of a node, and its first line where that is known.
-/

namespace ConstExpr

structure Span where
  start : Nat := 0
  stop : Nat := 0
  line : Option Nat := none
deriving DecidableEq

namespace Span

def atLine (line : Nat) : Span := { line := some line }

def length (s : Span) : Nat := s.stop - s.start

def isEmpty (s : Span) : Bool := s.stop ≤ s.start

def startLine (s : Span) : Nat := s.line.getD 0

def join (s t : Span) : Span where
  start := min s.start t.start
  stop := max s.stop t.stop
  line := s.line.or t.line

end Span

end ConstExpr
