import Ebnf.Cursor

/-! Why a literal does not match, and at which byte offset. It starves where the text ends inside it; else the
text has something unexpected in its place, of which as many characters are shown as the literal has. -/
namespace Ebnf

namespace Mismatch

inductive Kind where
  | starving (expected : String) (found required : Nat)
  | unexpected (found expected : String)
  deriving DecidableEq

def Kind.message : Kind → String
  | .starving expected found required => s!"expected '{expected}' but found {found} of {required} bytes"
  | .unexpected found expected => s!"unexpected '{found}', expected '{expected}'"

def Kind.expected : Kind → String
  | .starving expected _ _ => expected
  | .unexpected _ expected => expected

end Mismatch

structure Mismatch where
  offset : Nat
  kind : Mismatch.Kind
  deriving DecidableEq

def Mismatch.message (m : Mismatch) : String := s!"{m.kind.message} at offset {m.offset}"

def Mismatch.ofLiteral (value : String) (c : Cursor) : Mismatch where
  offset := c.offset
  kind :=
    if c.rest.isPrefixOf value.toList then
      .starving value (Text.byteLength c.rest) value.utf8ByteSize
    else
      .unexpected (String.ofList (c.rest.take value.length)) value

example : (Mismatch.ofLiteral "keyword" (.start "not_keyword")).message =
    "unexpected 'not_key', expected 'keyword' at offset 0" := by decide

example : (Mismatch.ofLiteral "keyword" (.start "key")).message =
    "expected 'keyword' but found 3 of 7 bytes at offset 0" := by decide

end Ebnf
