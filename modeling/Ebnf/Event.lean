import Ebnf.Element.Display

/-! What a match reports about itself while it runs: `debug` events frame it, `trace` events are its single
steps. Offsets and lengths are in bytes. -/
namespace Ebnf

inductive Level where
  | debug
  | trace
  deriving DecidableEq

namespace Level

def name : Level → String
  | .debug => "DEBUG"
  | .trace => "TRACE"

def keeps : Level → Level → Bool
  | .trace, _ => true
  | .debug, level => level == .debug

end Level

inductive Event where
  | parsing (bytes : Nat) (root : Element)
  | succeeded (bytes : Nat)
  | failed (errors : Nat)
  | trying (element : Element) (offset : Nat)
  | matched (element : Element) (bytes : Nat)
  | unmatched (element : Element) (errors : Nat)
  | stalled (element : Element) (offset : Nat)
  deriving DecidableEq

namespace Event

def level : Event → Level
  | .parsing _ _ | .succeeded _ | .failed _ => .debug
  | .trying _ _ | .matched _ _ | .unmatched _ _ | .stalled _ _ => .trace

def message : Event → String
  | .parsing bytes root => s!"parsing {bytes} bytes with {root}"
  | .succeeded bytes => s!"parse succeeded, consumed {bytes} bytes"
  | .failed errors => s!"parse failed with {errors} errors"
  | .trying element offset => s!"trying {element} at offset {offset}"
  | .matched element bytes => s!"matched {element} ({bytes} bytes)"
  | .unmatched element errors => s!"no match for {element} ({errors} errors)"
  | .stalled element offset => s!"{element} matched nothing at offset {offset}, stopping"

end Event
end Ebnf
