/-! Reading a text from a source that hands over its bytes piece by piece. A chunk without bytes is the end of
the text, and whether the bytes up to there encode one is asked only then. -/
namespace Ebnf

inductive Delivery where
  | chunk (bytes : ByteArray)
  | interruption
  | breakage

inductive ReadFault where
  | brokenPipe
  | invalidData
  deriving DecidableEq

namespace Delivery

def collect : List Delivery → Except ReadFault (List ByteArray)
  | [] => .ok []
  | .interruption :: later => collect later
  | .breakage :: _ => .error .brokenPipe
  | .chunk bytes :: later => if bytes.isEmpty then .ok [] else (bytes :: ·) <$> collect later

def join (chunks : List ByteArray) : ByteArray := chunks.foldl (· ++ ·) .empty

def readText (deliveries : List Delivery) : Except ReadFault String := do
  match String.fromUTF8? (join (← collect deliveries)) with
  | some text => return text
  | none => throw .invalidData

end Delivery
end Ebnf
