import Ebnf.Attempt.Events
import Ebnf.Delivery
import Ebnf.Outcome

/-! Parsers: one root element, matched against texts or against what a source delivers. -/
namespace Ebnf

structure Parser where
  root : Element
  deriving DecidableEq

namespace Parser

def parse (p : Parser) (text : String) : Outcome := p.root.parse text

def parseDelivered (p : Parser) (deliveries : List Delivery) : Except ReadFault Outcome :=
  p.parse <$> Delivery.readText deliveries

def closing : Outcome → Event
  | .success root => .succeeded root.byteLength
  | .failure _ errors => .failed errors.length

def events (p : Parser) (text : String) : List Event :=
  let attempt := p.root.attempt (.start text)
  .parsing text.utf8ByteSize p.root :: (attempt.events ++ [closing attempt.outcome])

example : (Parser.mk (.repetition (.terminal "a"))).events "a" =
    [.parsing 1 (.repetition (.terminal "a")), .trying (.repetition (.terminal "a")) 0,
      .trying (.terminal "a") 0, .matched (.terminal "a") 1, .matched (.repetition (.terminal "a")) 1,
      .succeeded 1] := by decide

end Parser

def Element.events (e : Element) (text : String) : List Event := (e.attempt (.start text)).events

end Ebnf
