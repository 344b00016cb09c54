import Ebnf.Text

/-! The place that a match has reached: the characters that are left and the number of bytes before them. -/
namespace Ebnf

structure Cursor where
  rest : List Char
  offset : Nat
  deriving DecidableEq

namespace Cursor

def start (text : String) : Cursor := ⟨text.toList, 0⟩

def skip? (value : String) (c : Cursor) : Option Cursor :=
  (Text.after? value.toList c.rest).map fun rest => ⟨rest, c.offset + value.utf8ByteSize⟩

end Cursor
end Ebnf
