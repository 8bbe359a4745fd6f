/-!
# Text Styles

Colour and weight on a terminal. A style holds up to the next reset, so a reset
inside a styled text is followed by the style again.

## Main definitions

* `Style.paint`: A text in a style.
-/

namespace Vouch

/-- The colours that are used. -/
inductive Colour
  | red
  | green
  | yellow

/-- A colour and a weight. -/
structure Style where
  bold : Bool := false
  dimmed : Bool := false
  colour : Option Colour := none

namespace Colour

/-- The number of a colour. -/
def code : Colour → String
  | red => "31"
  | green => "32"
  | yellow => "33"

end Colour

namespace Style

/-- The start of a control sequence. -/
def escape : String := "\x1b["

/-- What ends every style. -/
def reset : String := escape ++ "0m"

/-- What starts a style. -/
def start (s : Style) : String :=
  let weights := (if s.bold then ["1"] else []) ++ (if s.dimmed then ["2"] else [])
  escape ++ ";".intercalate (weights ++ (s.colour.map Colour.code).toList) ++ "m"

/-- A text in a style, or plain where there are no colours. -/
def paint (coloured : Bool) (s : Style) (text : String) : String :=
  if coloured then s.start ++ (reset ++ s.start).intercalate (text.splitOn reset) ++ reset
  else text

end Style

end Vouch
